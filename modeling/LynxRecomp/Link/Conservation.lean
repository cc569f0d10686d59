import LynxRecomp.Link.Session
import LynxRecomp.Runtime.Mem

/-!
# Two units on one link

Two units whose UARTs are bridged over a TCP connection take steps in any order: the
games access SERDAT and SERCTL, and each host runs `lynx_net_pump`, whose loop takes
one turn at a time, so that the peer may go on writing in between. For either
direction the bytes written are accounted for: delivered to the receiver's UART or
still in flight; and of those delivered the ones its FIFO had room for are read by
its game or still queued.
-/

namespace LynxRecomp

def rxFull (s : Serial) : Bool := rxNext s.rxTail == s.rxHead

/-- For bytes pushed one after the other: was there room for it? -/
def rxLog : List Byte → Hw Socket → List (Byte × Bool)
  | [], _ => []
  | b :: bs, hw => (b, !rxFull hw.serial) :: rxLog bs (lynxSerialRxPush b hw)

/-- The bytes of a log that there was room for. -/
def kept (log : List (Byte × Bool)) : List Byte := (log.filter Prod.snd).map Prod.fst

/-- One unit: its hardware and session, whether it is inside `lynx_net_pump`, and a record
of what it has done: the bytes written to SERDAT, the bytes that SERDAT reads with a
non-empty FIFO obtained, and the bytes pushed into the FIFO. -/
structure LinkUnit where
  hw : Hw Socket
  inPump : Bool
  wrote : List Byte
  obtained : List Byte
  delivered : List (Byte × Bool)

inductive UnitOp where
  | writeSerdat (val : Byte) (answers : List SendAnswer)
  | readSerdat
  | readSerctl
  | writeSerctl (val : Byte)
  | pump
  | pumpTurn (answer : RecvAnswer)
  deriving DecidableEq, Repr

namespace LinkUnit

def socket (u : LinkUnit) : Socket := u.hw.host.own

def setSocket (s : Socket) (u : LinkUnit) : LinkUnit := { u with hw := u.hw.setOwn s }

/-- A unit after `lynx_serial_init` and `lynx_net_attach` on a fresh connection. -/
def connect (hw : Hw Socket) : LinkUnit where
  hw := lynxNetAttach (lynxSerialInit
    (hw.setOwn { state := .connected, peer := true, inbox := [], outbox := [] }))
  inPump := false
  wrote := []
  obtained := []
  delivered := []

/-- The program of a unit is sequential: inside `lynx_net_pump` it takes turns of that loop
and nothing else, outside none. -/
def enabled : UnitOp → LinkUnit → Bool
  | .pumpTurn _, u => u.inPump
  | _, u => !u.inPump

def act : UnitOp → LinkUnit → LinkUnit
  | .writeSerdat val answers, u =>
    { u with hw := lynxMikeyWrite (netHooks answers) mikeySerdat val u.hw
             wrote := u.wrote ++ [val] }
  | .readSerdat, u =>
    let r := lynxMikeyRead mikeySerdat u.hw
    { u with hw := r.2
             obtained := if rxEmpty u.hw.serial then u.obtained else u.obtained ++ [r.1] }
  | .readSerctl, u => { u with hw := (lynxMikeyRead mikeySerctl u.hw).2 }
  | .writeSerctl val, u => { u with hw := lynxMikeyWrite (netHooks []) mikeySerctl val u.hw }
  | .pump, u => { u with inPump := lynxNetPumpEnters u.hw }
  | .pumpTurn answer, u =>
    let r := lynxNetPumpTurn answer u.hw
    let received := mpLinkRecv answer pumpBuf u.socket
    { u with hw := r.2, inPump := r.1
             delivered := u.delivered ++ rxLog received.2.1 (u.hw.setOwn received.2.2) }

def step (op : UnitOp) (u : LinkUnit) : LinkUnit := if enabled op u then act op u else u

/-- The OVERRUN status of the unit. -/
def Overrun (u : LinkUnit) : Prop := u.hw.serial.statusErr &&& serctlOverrun ≠ 0

end LinkUnit

/-- The two units; `true` and `false` are the two ends. -/
abbrev Link := Bool → LinkUnit

/-- A unit takes a step; what its socket has taken is then in flight to the other unit. -/
def Link.step (side : Bool) (op : UnitOp) (l : Link) : Link :=
  let u := (l side).step op
  let v := l (!side)
  Function.update
    (Function.update l side (u.setSocket { u.socket with outbox := [] }))
    (!side) (v.setSocket { v.socket with inbox := v.socket.inbox ++ u.socket.outbox })

def link : CommandMachine Link (Bool × UnitOp) Unit where
  step | (side, op), l => ((), l.step side op)

/-- The link stays connected as long as both sessions are up. -/
def Link.Up (l : Link) : Prop := ∀ side, (l side).socket.Up

section Receive

variable {hw : Hw Socket}

theorem kept_append (log log' : List (Byte × Bool)) :
    kept (log ++ log') = kept log ++ kept log' := by
  simp [kept]

theorem rxLog_bytes (bs : List Byte) (hw : Hw Socket) : (rxLog bs hw).map Prod.fst = bs := by
  induction bs generalizing hw with
  | nil => rfl
  | cons b bs ih => simp [rxLog, ih]

@[simp] theorem lynxSerialRxPush_host (b : Byte) (hw : Hw Socket) :
    (lynxSerialRxPush b hw).host = hw.host := by
  unfold lynxSerialRxPush
  simp only
  split <;> simp

/-- A push appends its byte to the queue if there is room, and else sets OVERRUN. -/
theorem lynxSerialRxPush_queue (b : Byte) (inBounds : hw.serial.InBounds) :
    (lynxSerialRxPush b hw).serial.InBounds ∧
      (lynxSerialRxPush b hw).serial.queue = hw.serial.queue ++ kept [(b, !rxFull hw.serial)] := by
  unfold lynxSerialRxPush rxFull kept
  simp only
  by_cases full : rxNext hw.serial.rxTail = hw.serial.rxHead
  · rw [if_pos full]
    refine ⟨inBounds, ?_⟩
    change hw.serial.queue = _
    simp [full]
  · rw [if_neg full, rxService_serial]
    refine ⟨⟨by simpa using inBounds.1, Serial.rxNext_lt _⟩, ?_⟩
    rw [Serial.queue_push inBounds b full]
    simp [full]

theorem lynxSerialRxPush_overrun (b : Byte) (hw : Hw Socket) (full : rxFull hw.serial = true) :
    (lynxSerialRxPush b hw).serial.statusErr &&& serctlOverrun ≠ 0 := by
  unfold lynxSerialRxPush
  simp only
  rw [if_pos (by simpa [rxFull] using full)]
  have flagged : (hw.serial.statusErr ||| serctlOverrun) &&& serctlOverrun = serctlOverrun := by
    ext i hi
    simp
    grind
  rw [flagged]
  decide

theorem lynxSerialRxPush_keeps_overrun (b : Byte) (hw : Hw Socket)
    (clear : (lynxSerialRxPush b hw).serial.statusErr &&& serctlOverrun = 0) :
    rxFull hw.serial = false ∧ hw.serial.statusErr &&& serctlOverrun = 0 := by
  have room : rxFull hw.serial = false := by
    rw [← Bool.not_eq_true]
    exact fun full => lynxSerialRxPush_overrun b hw full clear
  refine ⟨room, ?_⟩
  unfold lynxSerialRxPush at clear
  simp only at clear
  rw [if_neg (by simpa [rxFull] using room), rxService_serial] at clear
  unfold Serial.fifoSet at clear
  split at clear <;> exact clear

/-- The same for the bytes of a whole chunk, pushed one after the other. -/
theorem rxPushes_queue (bs : List Byte) (inBounds : hw.serial.InBounds) :
    (bs.foldl (fun hw b => lynxSerialRxPush b hw) hw).serial.InBounds ∧
      (bs.foldl (fun hw b => lynxSerialRxPush b hw) hw).serial.queue =
        hw.serial.queue ++ kept (rxLog bs hw) := by
  induction bs generalizing hw with
  | nil => exact ⟨inBounds, (List.append_nil _).symm⟩
  | cons b bs ih =>
    obtain ⟨pushed, queue⟩ := lynxSerialRxPush_queue b inBounds
    obtain ⟨all, rest⟩ := ih pushed
    refine ⟨all, ?_⟩
    rw [List.foldl_cons, rest, queue, List.append_assoc, ← kept_append]
    rfl

theorem rxPushes_host (bs : List Byte) (hw : Hw Socket) :
    (bs.foldl (fun hw b => lynxSerialRxPush b hw) hw).host = hw.host := by
  induction bs generalizing hw with
  | nil => rfl
  | cons b bs ih => exact (ih _).trans (lynxSerialRxPush_host b hw)

theorem rxPushes_overrun (bs : List Byte) (hw : Hw Socket)
    (clear : (bs.foldl (fun hw b => lynxSerialRxPush b hw) hw).serial.statusErr &&&
      serctlOverrun = 0) :
    hw.serial.statusErr &&& serctlOverrun = 0 ∧ ∀ e ∈ rxLog bs hw, e.2 = true := by
  induction bs generalizing hw with
  | nil => exact ⟨clear, by simp [rxLog]⟩
  | cons b bs ih =>
    obtain ⟨pushed, rest⟩ := ih (lynxSerialRxPush b hw) clear
    obtain ⟨room, before⟩ := lynxSerialRxPush_keeps_overrun b hw pushed
    refine ⟨before, ?_⟩
    simpa [rxLog, room] using rest

theorem kept_eq_bytes {log : List (Byte × Bool)} (all : ∀ e ∈ log, e.2 = true) :
    kept log = log.map Prod.fst := by
  rw [kept, List.filter_eq_self.mpr all]

end Receive

namespace LinkUnit

variable {u : LinkUnit} {op : UnitOp}

/-- The socket after a step: only a SERDAT write and a turn of the pump reach it. -/
def nextSocket : UnitOp → LinkUnit → Socket
  | .writeSerdat val answers, u =>
    if u.hw.host.txHook then (mpLinkSend answers [val] u.socket).2 else u.socket
  | .pumpTurn answer, u => (mpLinkRecv answer pumpBuf u.socket).2.2
  | _, u => u.socket

theorem act_host (op : UnitOp) (u : LinkUnit) :
    (act op u).hw.host = (u.hw.setOwn (nextSocket op u)).host := by
  cases op with
  | writeSerdat val answers =>
    have written : (act (.writeSerdat val answers) u).hw =
        lynxSerialWrite (netHooks answers) mikeySerdat val
          { u.hw with mikey := Function.update u.hw.mikey mikeySerdat val } := rfl
    rw [written, lynxSerialWrite, if_pos (by rfl), nextSocket]
    simp only
    by_cases hooked : u.hw.host.txHook = true
    · rw [if_pos hooked, if_pos hooked]
      split <;> rfl
    · rw [if_neg hooked, if_neg hooked]
      split <;> rfl
  | readSerdat =>
    have read : (act .readSerdat u).hw = (lynxSerialRead mikeySerdat u.hw).2 := rfl
    rw [read, lynxSerialRead, if_pos (by rfl)]
    split
    · rfl
    · simp only [rxService_host]; rfl
  | writeSerctl val =>
    have written : (act (.writeSerctl val) u).hw = lynxSerialWrite (netHooks []) mikeySerctl val
        { u.hw with mikey := Function.update u.hw.mikey mikeySerctl val } := rfl
    rw [written, lynxSerialWrite, if_neg (by decide)]
    simp only [rxService_host]; rfl
  | pumpTurn answer =>
    simp only [act, lynxNetPumpTurn, nextSocket]
    split
    · rfl
    · exact rxPushes_host _ _
  | readSerctl | pump => rfl

theorem act_socket (op : UnitOp) (u : LinkUnit) : (act op u).socket = nextSocket op u :=
  congrArg Host.own (act_host op u)

/-- A session that is up after a step was up before it. -/
theorem up_of_act (up : (act op u).socket.Up) : u.socket.Up := by
  rw [act_socket] at up
  cases op with
  | writeSerdat val answers =>
    simp only [nextSocket] at up
    split at up
    · rw [mpLinkSend_sent up] at up
      exact up
    · exact up
  | pumpTurn answer =>
    simp only [nextSocket] at up
    rw [(mpLinkRecv_received up).1] at up
    exact up
  | _ => exact up

/-- As a writer: what a unit writes while its session stays up goes to its socket. -/
theorem act_writes (hooked : u.hw.host.txHook = true) (up : (act op u).socket.Up) :
    ∃ bs, (act op u).wrote = u.wrote ++ bs ∧
      (act op u).socket.outbox = u.socket.outbox ++ bs := by
  rw [act_socket] at up ⊢
  cases op with
  | writeSerdat val answers =>
    simp only [nextSocket, hooked, if_true] at up ⊢
    rw [mpLinkSend_sent up]
    exact ⟨[val], rfl, rfl⟩
  | pumpTurn answer =>
    simp only [nextSocket] at up ⊢
    rw [(mpLinkRecv_received up).1]
    exact ⟨[], (List.append_nil _).symm, (List.append_nil _).symm⟩
  | _ => exact ⟨[], (List.append_nil _).symm, (List.append_nil _).symm⟩

theorem writeSerdat_serial (answers : List SendAnswer) (val : Byte) (hw : Hw Socket) :
    (lynxMikeyWrite (netHooks answers) mikeySerdat val hw).serial = hw.serial := by
  have written : lynxMikeyWrite (netHooks answers) mikeySerdat val hw =
      lynxSerialWrite (netHooks answers) mikeySerdat val
        { hw with mikey := Function.update hw.mikey mikeySerdat val } := rfl
  rw [written, lynxSerialWrite, if_pos (by rfl)]
  simp only
  split <;> split <;> rfl

theorem writeSerctl_serial (hooks : Hooks Socket) (val : Byte) (hw : Hw Socket) :
    (lynxMikeyWrite hooks mikeySerctl val hw).serial.rxHead = hw.serial.rxHead ∧
      (lynxMikeyWrite hooks mikeySerctl val hw).serial.rxTail = hw.serial.rxTail ∧
      (lynxMikeyWrite hooks mikeySerctl val hw).serial.queue = hw.serial.queue := by
  have written : lynxMikeyWrite hooks mikeySerctl val hw = lynxSerialWrite hooks mikeySerctl val
      { hw with mikey := Function.update hw.mikey mikeySerctl val } := rfl
  rw [written, lynxSerialWrite, if_neg (by decide)]
  simp only [rxService_serial]
  split <;> exact ⟨rfl, rfl, rfl⟩

/-- A SERDAT read takes the oldest byte of the queue, if there is one. -/
theorem readSerdat_serial {hw : Hw Socket} (inBounds : hw.serial.InBounds) :
    (lynxMikeyRead mikeySerdat hw).2.serial.InBounds ∧
      hw.serial.queue = (if rxEmpty hw.serial then [] else [(lynxMikeyRead mikeySerdat hw).1]) ++
        (lynxMikeyRead mikeySerdat hw).2.serial.queue := by
  have read : lynxMikeyRead mikeySerdat hw = lynxSerialRead mikeySerdat hw := rfl
  rw [read, lynxSerialRead, if_pos (by rfl)]
  by_cases empty : rxEmpty hw.serial = true
  · rw [if_pos empty, if_pos empty]
    exact ⟨inBounds, rfl⟩
  · rw [if_neg empty, if_neg empty]
    simp only [rxService_serial]
    exact ⟨⟨Serial.rxNext_lt _, inBounds.2⟩, Serial.queue_pop inBounds (by simpa using empty)⟩

/-- A turn of the pump queues what it receives, as far as there is room. -/
theorem pumpTurn_serial (answer : RecvAnswer) {hw : Hw Socket} (inBounds : hw.serial.InBounds)
    (up : (mpLinkRecv answer pumpBuf hw.host.own).2.2.Up) :
    let received := mpLinkRecv answer pumpBuf hw.host.own
    let log := rxLog received.2.1 (hw.setOwn received.2.2)
    (lynxNetPumpTurn answer hw).2.serial.InBounds ∧
      (lynxNetPumpTurn answer hw).2.serial.queue = hw.serial.queue ++ kept log ∧
      ((lynxNetPumpTurn answer hw).2.serial.statusErr &&& serctlOverrun = 0 →
        ∀ e ∈ log, e.2 = true) := by
  intro received log
  unfold lynxNetPumpTurn
  simp only
  by_cases none : received.1 ≤ 0
  · have empty : log = [] := by
      simp only [log, received, (mpLinkRecv_received up).2.2 none, rxLog]
    rw [if_pos none, empty]
    exact ⟨inBounds, (List.append_nil _).symm, fun _ e he => absurd he List.not_mem_nil⟩
  · rw [if_neg none]
    obtain ⟨all, queue⟩ := rxPushes_queue received.2.1
      (show (hw.setOwn received.2.2).serial.InBounds from inBounds)
    exact ⟨all, queue, fun clear => (rxPushes_overrun _ _ clear).2⟩

/-- As a reader: what leaves the stream is delivered, and what is delivered and kept is
queued or obtained. -/
theorem act_reads (inBounds : u.hw.serial.InBounds) (up : (act op u).socket.Up) :
    (act op u).hw.serial.InBounds ∧
      (act op u).delivered.map Prod.fst ++ (act op u).socket.inbox =
        u.delivered.map Prod.fst ++ u.socket.inbox ∧
      (u.obtained ++ u.hw.serial.queue = kept u.delivered →
        (act op u).obtained ++ (act op u).hw.serial.queue = kept (act op u).delivered) := by
  rw [act_socket] at up ⊢
  cases op with
  | writeSerdat val answers =>
    simp only [act, nextSocket, writeSerdat_serial] at up ⊢
    refine ⟨inBounds, ?_, id⟩
    split at up
    · rename_i hooked
      rw [if_pos hooked, mpLinkSend_sent up]
    · rename_i unhooked
      rw [if_neg unhooked]
  | readSerdat =>
    obtain ⟨inBoundsAfter, queue⟩ := readSerdat_serial inBounds
    refine ⟨inBoundsAfter, rfl, fun balanced => ?_⟩
    have after : kept (act .readSerdat u).delivered = kept u.delivered := rfl
    rw [after, ← balanced, queue]
    simp only [act]
    split <;> simp
  | readSerctl => exact ⟨inBounds, rfl, id⟩
  | writeSerctl val =>
    obtain ⟨head, tail, queue⟩ := writeSerctl_serial (netHooks []) val u.hw
    simp only [act, nextSocket, queue, Serial.InBounds, head, tail]
    exact ⟨inBounds, trivial, id⟩
  | pump => exact ⟨inBounds, rfl, id⟩
  | pumpTurn answer =>
    obtain ⟨all, queue, -⟩ := pumpTurn_serial answer inBounds up
    obtain ⟨-, taken, -⟩ := mpLinkRecv_received up
    simp only [act, nextSocket]
    refine ⟨all, ?_, fun balanced => ?_⟩
    · rw [List.map_append, rxLog_bytes, List.append_assoc, ← taken]
    · rw [queue, kept_append, ← List.append_assoc, balanced]
      rfl

/-- A step after which OVERRUN is clear has discarded nothing. -/
theorem act_overrun (inBounds : u.hw.serial.InBounds) (up : (act op u).socket.Up)
    (clear : ¬ (act op u).Overrun) (all : ∀ e ∈ u.delivered, e.2 = true) :
    ∀ e ∈ (act op u).delivered, e.2 = true := by
  cases op with
  | pumpTurn answer =>
    rw [act_socket] at up
    simp only [act, List.mem_append]
    rintro e (old | new)
    · exact all e old
    · exact (pumpTurn_serial answer inBounds up).2.2 (not_not.mp clear) e new
  | _ => exact all

/-- What is kept of a unit's bookkeeping from one step to the next. -/
structure Ready (u : LinkUnit) : Prop where
  inBounds : u.hw.serial.InBounds
  hooked : u.hw.host.txHook = true
  flushed : u.socket.outbox = []
  balanced : u.obtained ++ u.hw.serial.queue = kept u.delivered

@[simp] theorem setSocket_socket (s : Socket) (u : LinkUnit) : (u.setSocket s).socket = s := rfl

theorem step_eq (op : UnitOp) (u : LinkUnit) : step op u = u ∨ step op u = act op u := by
  unfold step
  split
  · exact Or.inr rfl
  · exact Or.inl rfl

theorem up_of_step (up : (step op u).socket.Up) : u.socket.Up := by
  obtain same | acted := step_eq op u
  · rwa [same] at up
  · rw [acted] at up
    exact up_of_act up

/-- All that a step does to the accounts of a unit whose session stays up. -/
theorem step_accounts (ready : u.Ready) (up : (step op u).socket.Up) :
    ((step op u).setSocket { (step op u).socket with outbox := [] }).Ready ∧
      (step op u).wrote = u.wrote ++ (step op u).socket.outbox ∧
      (step op u).delivered.map Prod.fst ++ (step op u).socket.inbox =
        u.delivered.map Prod.fst ++ u.socket.inbox := by
  obtain ⟨inBounds, hooked, flushed, balanced⟩ := ready
  obtain same | acted := step_eq op u
  · rw [same]
    refine ⟨⟨inBounds, hooked, rfl, balanced⟩, ?_, rfl⟩
    rw [flushed, List.append_nil]
  · rw [acted] at up ⊢
    obtain ⟨bs, wrote, sent⟩ := act_writes hooked up
    obtain ⟨inBoundsAfter, stream, balancedAfter⟩ := act_reads inBounds up
    have hookedAfter : (act op u).hw.host.txHook = true := by rw [act_host]; exact hooked
    rw [flushed, List.nil_append] at sent
    exact ⟨⟨inBoundsAfter, hookedAfter, rfl, balancedAfter balanced⟩, by rw [wrote, sent], stream⟩

end LinkUnit

namespace Link

variable {l : Link}

/-- The accounts of the link: each unit is ready, and what one end wrote is delivered to
the other end or in flight to it. -/
structure Balanced (l : Link) : Prop where
  ready : ∀ side, (l side).Ready
  sent : ∀ side, (l side).wrote =
    (l (!side)).delivered.map Prod.fst ++ (l (!side)).socket.inbox

theorem step_self (side : Bool) (op : UnitOp) (l : Link) :
    l.step side op side =
      ((l side).step op).setSocket { ((l side).step op).socket with outbox := [] } := by
  cases side <;> rfl

theorem step_other (side : Bool) (op : UnitOp) (l : Link) :
    l.step side op (!side) = (l (!side)).setSocket
      { (l (!side)).socket with
        inbox := (l (!side)).socket.inbox ++ ((l side).step op).socket.outbox } := by
  cases side <;> rfl

/-- Once down, the link stays down. -/
theorem up_of_step {side : Bool} {op : UnitOp} (up : (l.step side op).Up) : l.Up := by
  intro end_
  obtain rfl | rfl : end_ = side ∨ end_ = !side := by cases end_ <;> cases side <;> simp
  · have upAfter := up end_
    rw [step_self] at upAfter
    exact LinkUnit.up_of_step upAfter
  · have upAfter := up (!side)
    rw [step_other] at upAfter
    exact upAfter

theorem step_balanced {side : Bool} {op : UnitOp} (balanced : l.Balanced)
    (up : (l.step side op).Up) : (l.step side op).Balanced := by
  obtain ⟨ready, sent⟩ := balanced
  have upAfter := up side
  rw [step_self] at upAfter
  obtain ⟨readyAfter, wrote, stream⟩ := LinkUnit.step_accounts (ready side) upAfter
  refine ⟨fun end_ => ?_, fun end_ => ?_⟩
  · obtain rfl | rfl : end_ = side ∨ end_ = !side := by cases end_ <;> cases side <;> simp
    · rw [step_self]
      exact readyAfter
    · rw [step_other]
      obtain ⟨inBounds, hooked, flushed, balanced⟩ := ready (!side)
      exact ⟨inBounds, hooked, flushed, balanced⟩
  · obtain rfl | rfl : end_ = side ∨ end_ = !side := by cases end_ <;> cases side <;> simp
    -- the end that acts is the writer, the other one the reader
    · rw [step_self, step_other]
      simp only [LinkUnit.setSocket_socket]
      change ((l end_).step op).wrote = _
      rw [wrote, sent end_, List.append_assoc]
      rfl
    -- the other way round
    · rw [Bool.not_not, step_self, step_other]
      change (l (!side)).wrote = _
      rw [sent (!side), Bool.not_not]
      exact stream.symm

theorem step_kept {side : Bool} {op : UnitOp} (balanced : l.Balanced) (up : (l.step side op).Up)
    {end_ : Bool} (clear : ¬ (l.step side op end_).Overrun)
    (all : ∀ e ∈ (l end_).delivered, e.2 = true) :
    ∀ e ∈ (l.step side op end_).delivered, e.2 = true := by
  obtain rfl | rfl : end_ = side ∨ end_ = !side := by cases end_ <;> cases side <;> simp
  · have upAfter := up end_
    rw [step_self] at upAfter clear ⊢
    obtain same | acted := LinkUnit.step_eq op (l end_)
    · rw [same]
      exact all
    · rw [acted] at upAfter clear ⊢
      exact LinkUnit.act_overrun (balanced.ready end_).inBounds upAfter clear all
  · rw [step_other]
    exact all

def connect (a b : Hw Socket) : Link := fun side => LinkUnit.connect (if side then a else b)

theorem connect_balanced (a b : Hw Socket) : (connect a b).Balanced where
  ready side := by
    refine ⟨⟨?_, ?_⟩, rfl, rfl, rfl⟩ <;>
      simp [connect, LinkUnit.connect, lynxNetAttach, lynxSerialInit, rxFifoSize]
  sent _ := rfl

/-- The run lemma: while the link stays connected its accounts are balanced throughout. -/
theorem run_balanced {a b : Hw Socket} {events : List (Bool × UnitOp)}
    (up : (link.run events (connect a b)).2.Up) :
    link.Always Link.Balanced events (connect a b) := by
  have throughout : link.Always Link.Up events (connect a b) :=
    CommandMachine.always_of_last (fun (_, _) _ => up_of_step) up
  refine CommandMachine.always_of_permitted (fun (side, op) l upAfter balanced => ?_)
    throughout.permitted (connect_balanced a b)
  exact step_balanced balanced upAfter

/-- While the link stays connected and OVERRUN clear, every byte delivered was kept. -/
theorem run_kept {a b : Hw Socket} {events : List (Bool × UnitOp)}
    (up : (link.run events (connect a b)).2.Up) {end_ : Bool}
    (clear : link.Always (fun l => ¬ (l end_).Overrun) events (connect a b)) :
    ∀ e ∈ ((link.run events (connect a b)).2 end_).delivered, e.2 = true := by
  have upAfter := (CommandMachine.always_of_last (fun (_, _) _ => up_of_step) up).permitted
  have clearAfter := clear.permitted
  have all : link.Always
      (fun l => l.Balanced ∧ ∀ e ∈ (l end_).delivered, e.2 = true) events (connect a b) := by
    refine CommandMachine.always_of_permitted (fun (side, op) l ok known => ?_)
      (upAfter.and clearAfter) ⟨connect_balanced a b, fun e he => absurd he List.not_mem_nil⟩
    exact ⟨step_balanced known.1 ok.1, step_kept known.1 ok.1 ok.2 known.2⟩
  exact all.last.2

end Link

/-- Whatever the two units do in whatever order while the link stays connected, in either
direction: what was written is what was delivered, in that order, and what is in flight;
what was delivered and found room is what was obtained and what is queued; a push that
finds no room sets OVERRUN; and if OVERRUN was never set nothing is missing. -/
theorem link_conserves_bytes (a b : Hw Socket) (events : List (Bool × UnitOp))
    (up : (link.run events (Link.connect a b)).2.Up) (side : Bool) :
    let writer := (link.run events (Link.connect a b)).2 side
    let reader := (link.run events (Link.connect a b)).2 (!side)
    writer.wrote = reader.delivered.map Prod.fst ++ reader.socket.inbox ∧
      reader.obtained ++ reader.hw.serial.queue ++ reader.socket.inbox =
        kept reader.delivered ++ reader.socket.inbox ∧
      (∀ byte (hw : Hw Socket), rxFull hw.serial = true →
        (lynxSerialRxPush byte hw).serial.statusErr &&& serctlOverrun ≠ 0) ∧
      (link.Always (fun l => ¬ (l (!side)).Overrun) events (Link.connect a b) →
        reader.obtained ++ reader.hw.serial.queue ++ reader.socket.inbox = writer.wrote) := by
  intro writer reader
  have balanced := (Link.run_balanced up).last
  have sent := balanced.sent side
  have received := (balanced.ready (!side)).balanced
  refine ⟨sent, congrArg (· ++ _) received, lynxSerialRxPush_overrun, fun clear => ?_⟩
  calc reader.obtained ++ reader.hw.serial.queue ++ reader.socket.inbox
      = kept reader.delivered ++ reader.socket.inbox := congrArg (· ++ _) received
    _ = reader.delivered.map Prod.fst ++ reader.socket.inbox := by
        rw [kept_eq_bytes (Link.run_kept up clear)]
    _ = writer.wrote := sent.symm

/-- A byte goes from one unit's SERDAT to the other's. -/
theorem byte_crosses_link :
    let start := Link.connect (Hw.zeroed ⟨.idle, false, [], []⟩) (Hw.zeroed ⟨.idle, false, [], []⟩)
    let events := [(true, UnitOp.writeSerdat 0x5A []), (false, .pump),
      (false, .pumpTurn (.data 0)), (false, .readSerdat)]
    let reader := (link.run events start).2 false
    reader.obtained ++ reader.hw.serial.queue ++ reader.socket.inbox = [0x5A] := by
  intro start events reader
  refine (link_conserves_bytes _ _ events ?_ true).2.2.2 ?_
  · intro side
    cases side <;> exact ⟨rfl, rfl⟩
  · refine ⟨?_, ?_, ?_, ?_, ?_⟩ <;> exact not_not.mpr rfl

end LynxRecomp
