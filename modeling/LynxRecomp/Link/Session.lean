import LynxRecomp.Runtime.SerialQueue

/-!
# The ComLynx byte relay

`mp_session.c` keeps one TCP connection to the peer; `net.c` bridges it to the UART.
What the socket answers to a `send` or a `recv` is not up to the program and comes as
an argument: how much it takes or hands out, or that it would block, or that the
connection is gone.
-/

namespace LynxRecomp

inductive MpState where
  | idle
  | hosting
  | connecting
  | connected
  | disconnected
  deriving DecidableEq, Repr

/-- `s_state` and `s_peer` of one unit (`peer` while the socket is valid), with the bytes
its socket still has to hand out and the bytes it has taken. -/
structure Socket where
  state : MpState
  peer : Bool
  inbox : List Byte
  outbox : List Byte
  deriving DecidableEq, Repr

/-- What `send` does: take `extra + 1` bytes (or all, if there are fewer), or fail. -/
inductive SendAnswer where
  | took (extra : Nat)
  | failed
  deriving DecidableEq, Repr

/-- What `recv` does: hand out `extra + 1` of the pending bytes (or all, if there are fewer,
or as many as fit), find nothing pending, see the connection closed, or fail. Data when
nothing is pending is the same as nothing pending. -/
inductive RecvAnswer where
  | data (extra : Nat)
  | wouldBlock
  | closed
  | failed
  deriving DecidableEq, Repr

/-- `send_all`; a blocking `send` that is asked nothing more takes what is left. -/
def sendAll : List SendAnswer → List Byte → Socket → Bool × Socket
  | _, [], s => (true, s)
  | [], b :: bs, s => (true, { s with outbox := s.outbox ++ b :: bs })
  | .failed :: _, _ :: _, s => (false, s)
  | .took extra :: answers, b :: bs, s =>
    sendAll answers (bs.drop extra) { s with outbox := s.outbox ++ b :: bs.take extra }

/-- The peer is gone: close the socket. -/
def Socket.drop (s : Socket) : Socket := { s with state := .disconnected, peer := false }

def mpLinkSend (answers : List SendAnswer) (bytes : List Byte) (s : Socket) : Bool × Socket :=
  if s.peer = false then (false, s)
  else if bytes = [] then (true, s)
  else
    let r := sendAll answers bytes s
    if r.1 then (true, r.2) else (false, r.2.drop)

/-- The value returned and the bytes put in the buffer. -/
def mpLinkRecv (answer : RecvAnswer) (cap : Nat) (s : Socket) : Int × List Byte × Socket :=
  if s.peer = false then (-1, [], s)
  else if cap = 0 then (0, [], s)
  else
    match answer with
    | .data extra =>
      let bytes := s.inbox.take (min (extra + 1) cap)
      (bytes.length, bytes, { s with inbox := s.inbox.drop (min (extra + 1) cap) })
    | .wouldBlock => (0, [], s)
    | .closed => (-1, [], s.drop)
    | .failed => (-1, [], s.drop)

/-- `tx_to_link` -/
def txToLink (answers : List SendAnswer) (byte : Byte) (hw : Hw Socket) : Hw Socket :=
  hw.setOwn (mpLinkSend answers [byte] hw.host.own).2

/-- The hooks of a unit whose socket will give these answers. -/
def netHooks (answers : List SendAnswer) : Hooks Socket := { tx := txToLink answers, frame := none }

def lynxNetAttach (hw : Hw Socket) : Hw Socket :=
  { hw with host := { hw.host with txHook := true } }

def pumpBuf : Nat := 256

/-- Whether `lynx_net_pump` enters its loop. -/
def lynxNetPumpEnters (hw : Hw Socket) : Bool := hw.host.own.state == .connected

/-- One turn of the loop of `lynx_net_pump`, and whether it goes round again. -/
def lynxNetPumpTurn (answer : RecvAnswer) (hw : Hw Socket) : Bool × Hw Socket :=
  let r := mpLinkRecv answer pumpBuf hw.host.own
  let hw := hw.setOwn r.2.2
  if r.1 ≤ 0 then (false, hw)
  else (!decide (r.1 < pumpBuf), r.2.1.foldl (fun hw b => lynxSerialRxPush b hw) hw)

/-- The session is up: connected, with a valid socket. -/
def Socket.Up (s : Socket) : Prop := s.state = .connected ∧ s.peer = true

section Relay

variable {s : Socket}

theorem Socket.drop_not_up (s : Socket) : ¬ s.drop.Up := fun h => Bool.false_ne_true h.2

/-- A successful `send_all` has handed over all bytes, in order, and nothing else. -/
theorem sendAll_sent (answers : List SendAnswer) (bytes : List Byte) (s : Socket)
    (success : (sendAll answers bytes s).1 = true) :
    (sendAll answers bytes s).2 = { s with outbox := s.outbox ++ bytes } := by
  induction answers generalizing bytes s with
  | nil => cases bytes <;> simp [sendAll]
  | cons answer answers ih =>
    cases bytes with
    | nil => simp [sendAll]
    | cons b bs =>
      cases answer with
      | failed => simp [sendAll] at success
      | took extra =>
        rw [sendAll, ih _ _ success]
        simp

theorem mpLinkSend_sent {answers : List SendAnswer} {bytes : List Byte}
    (up : (mpLinkSend answers bytes s).2.Up) :
    (mpLinkSend answers bytes s).2 = { s with outbox := s.outbox ++ bytes } := by
  unfold mpLinkSend at up ⊢
  split at up
  · rename_i closed
    exact absurd up.2 (by simp [closed])
  · rename_i opened
    rw [if_neg opened]
    by_cases nothing : bytes = []
    · simp [nothing]
    · rw [if_neg nothing] at up ⊢
      by_cases success : (sendAll answers bytes s).1 = true
      · simp only [success, if_true]
        exact sendAll_sent answers bytes s success
      · simp only [success] at up
        exact absurd up (Socket.drop_not_up _)

/-- While the session stays up, `recv` hands out a prefix of what is pending, at most a
buffer full, and a result of 0 or less stands for no bytes. -/
theorem mpLinkRecv_received {answer : RecvAnswer} {cap : Nat}
    (up : (mpLinkRecv answer cap s).2.2.Up) :
    let r := mpLinkRecv answer cap s
    r.2.2 = { s with inbox := r.2.2.inbox } ∧ s.inbox = r.2.1 ++ r.2.2.inbox ∧
      (r.1 ≤ 0 → r.2.1 = []) := by
  unfold mpLinkRecv at up ⊢
  split
  · exact ⟨rfl, rfl, fun _ => rfl⟩
  · rename_i opened
    rw [if_neg opened] at up
    split
    · exact ⟨rfl, rfl, fun _ => rfl⟩
    · rename_i room
      rw [if_neg room] at up
      cases answer with
      | data extra =>
        refine ⟨rfl, (List.take_append_drop _ _).symm, fun none => ?_⟩
        exact List.length_eq_zero_iff.mp (Nat.le_zero.mp (Int.ofNat_le.mp none))
      | wouldBlock => exact ⟨rfl, rfl, fun _ => rfl⟩
      | closed => exact absurd up (Socket.drop_not_up _)
      | failed => exact absurd up (Socket.drop_not_up _)

end Relay

end LynxRecomp
