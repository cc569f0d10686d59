import LynxRecomp.Lib.BusProgram
import LynxRecomp.Lib.CommandMachine
import LynxRecomp.Lib.Layout
import LynxRecomp.Lib.Ring
import LynxRecomp.Runtime.State
import LynxRecomp.Runtime.SerialQueue
import LynxRecomp.Runtime.ReceiveInterrupt
import LynxRecomp.Runtime.SaveState
import LynxRecomp.Runtime.TimerCounts
import LynxRecomp.Runtime.Elapse
import LynxRecomp.Runtime.Interrupts
import LynxRecomp.Runtime.AudioRange
import LynxRecomp.Runtime.ClockRate
import LynxRecomp.Runtime.MultiByte
import LynxRecomp.Runtime.PackedLine
import LynxRecomp.Runtime.MirrorImage
import LynxRecomp.Runtime.TimerDone
import LynxRecomp.Runtime.MathUnit
import LynxRecomp.Link.Conservation
import LynxRecomp.Link.Blob
import LynxRecomp.Recompiler.Correctness
import LynxRecomp.Recompiler.Decryption
import LynxRecomp.Recompiler.Coverage
import LynxRecomp.Recompiler.Closure
import LynxRecomp.Recompiler.Bounds
import LynxRecomp.Recompiler.MissedJumps
import LynxRecomp.Recompiler.Agreement
import LynxRecomp.Recompiler.Ticks
import LynxRecomp.Recompiler.ControlFacts
import LynxRecomp.Recompiler.WholeRoutines
import LynxRecomp.Recompiler.CartBus
import LynxRecomp.Runtime.Scene
import LynxRecomp.Runtime.IrqHistory
import LynxRecomp.Link.StateSync
import LynxRecomp.Link.SessionRuns
import LynxRecomp.Recompiler.Frames
import LynxRecomp.Recompiler.Captures
import LynxRecomp.Recompiler.BootImage
import LynxRecomp.Recompiler.Listing
import LynxRecomp.Recompiler.Pipeline
import LynxRecomp.Frontend.Config
import LynxRecomp.Frontend.Controls
