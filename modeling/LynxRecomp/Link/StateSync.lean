import LynxRecomp.Link.Blob
import LynxRecomp.Link.Conservation
import LynxRecomp.Runtime.SaveState

/-!
# Starting a link

On connect the host sends its save state as a blob, and the bytes of the link follow it on the
same stream. The client takes the blob, loads it, and leaves the rest to `lynx_net_pump`.
-/

namespace LynxRecomp

variable {η : Type}

namespace Machine

def socket (m : Machine Socket) : Socket := m.hw.host.own

def setSocket (s : Socket) (m : Machine Socket) : Machine Socket := { m with hw := m.hw.setOwn s }

theorem setSocket_inbox (bytes : List Byte) (s : Socket) (m : Machine Socket) :
    (m.setSocket { s with inbox := bytes }).socket.inbox = bytes := rfl

end Machine

/-- The host's side: `mp_send_blob` of what `lynx_state_save` writes -/
def sendState (hdrAnswers answers : List SendAnswer) (m : Machine Socket) :
    Bool × Machine Socket :=
  let buf := (lynxStateSave m lynxStateSize).2
  let r := mpSendBlob hdrAnswers answers buf buf.length m.socket
  (r.1, m.setSocket r.2)

/-- The client's side: `mp_recv_blob`, and `lynx_state_load` of what it gives. The result is
`none` if it waits for bytes that never come. -/
def recvState (hdrAnswers answers : List RecvAnswer) (m : Machine Socket) :
    Option (Bool × Machine Socket) :=
  match mpRecvBlob hdrAnswers answers true m.socket with
  | none => none
  | some (none, s) => some (false, m.setSocket s)
  | some (some (buf, _), s) =>
    let r := lynxStateLoad buf (m.setSocket s)
    some (decide (r.1 = 0), r.2)

/-- Bytes that the game writes to SERDAT one after the other, with the answers to the `send`s -/
def linkSends (writes : List (List SendAnswer × Byte)) (s : Socket) : Socket :=
  writes.foldl (fun s w => (mpLinkSend w.1 [w.2] s).2) s

/-- The loop of `lynx_net_pump`, with the answers to its `recv`s; after them nothing is
pending. -/
def lynxNetPumpLoop : List RecvAnswer → Hw Socket → Hw Socket
  | [], hw => hw
  | answer :: answers, hw =>
    let r := lynxNetPumpTurn answer hw
    if r.1 then lynxNetPumpLoop answers r.2 else r.2

def lynxNetPump (answers : List RecvAnswer) (hw : Hw Socket) : Hw Socket :=
  if lynxNetPumpEnters hw then lynxNetPumpLoop answers hw else hw

section Sends

theorem mpLinkSend_up {answers : List SendAnswer} {bytes : List Byte} {s : Socket}
    (up : (mpLinkSend answers bytes s).2.Up) : s.Up := by
  rw [mpLinkSend_sent up] at up
  exact up

theorem linkSends_up {writes : List (List SendAnswer × Byte)} {s : Socket}
    (up : (linkSends writes s).Up) : s.Up := by
  induction writes generalizing s with
  | nil => exact up
  | cons w writes ih => exact mpLinkSend_up (ih up)

theorem linkSends_sent {writes : List (List SendAnswer × Byte)} {s : Socket}
    (up : (linkSends writes s).Up) :
    linkSends writes s = { s with outbox := s.outbox ++ writes.map Prod.snd } := by
  induction writes generalizing s with
  | nil => simp [linkSends]
  | cons w writes ih =>
    have first : (mpLinkSend w.1 [w.2] s).2.Up := @linkSends_up writes _ up
    have step : linkSends (w :: writes) s = linkSends writes (mpLinkSend w.1 [w.2] s).2 := rfl
    rw [step, @ih (mpLinkSend w.1 [w.2] s).2 up, mpLinkSend_sent first, List.append_assoc]
    rfl

end Sends

section Pump

def pushed (bytes : List Byte) (hw : Hw Socket) : Hw Socket :=
  bytes.foldl (fun hw b => lynxSerialRxPush b hw) hw

theorem rxService_setOwn (s : Socket) (hw : Hw Socket) :
    rxService (hw.setOwn s) = (rxService hw).setOwn s := by
  unfold rxService
  rw [apply_ite (Hw.setOwn s)]
  rfl

theorem lynxSerialRxPush_setOwn (b : Byte) (s : Socket) (hw : Hw Socket) :
    lynxSerialRxPush b (hw.setOwn s) = (lynxSerialRxPush b hw).setOwn s := by
  unfold lynxSerialRxPush
  by_cases full : rxNext hw.serial.rxTail = hw.serial.rxHead
  · rw [if_pos full]
    exact if_pos full
  · rw [if_neg full]
    let pushed : Hw Socket := { hw with serial :=
      { hw.serial.fifoSet hw.serial.rxTail b with rxTail := rxNext hw.serial.rxTail } }
    exact (if_neg full).trans (rxService_setOwn s pushed)

theorem pushed_setOwn (bytes : List Byte) (s : Socket) (hw : Hw Socket) :
    pushed bytes (hw.setOwn s) = (pushed bytes hw).setOwn s := by
  induction bytes generalizing hw with
  | nil => rfl
  | cons b bytes ih =>
    have first := lynxSerialRxPush_setOwn b s hw
    exact (congrArg (pushed bytes) first).trans (ih _)

theorem pushed_append (first second : List Byte) (hw : Hw Socket) :
    pushed (first ++ second) hw = pushed second (pushed first hw) := List.foldl_append ..

/-- The state after the first `k` bytes of the stream have been delivered -/
def delivered (k : Nat) (hw : Hw Socket) : Hw Socket :=
  (pushed (hw.host.own.inbox.take k) hw).setOwn
    { hw.host.own with inbox := hw.host.own.inbox.drop k }

theorem delivered_own (k : Nat) (hw : Hw Socket) : (delivered k hw).host.own =
    { hw.host.own with inbox := hw.host.own.inbox.drop k } := rfl

theorem delivered_delivered (j k : Nat) (hw : Hw Socket) :
    delivered j (delivered k hw) = delivered (k + j) hw := by
  have own := delivered_own k hw
  rw [delivered, own, delivered, pushed_setOwn, ← pushed_append, List.drop_drop, ← List.take_add]
  rfl

theorem lynxNetPumpTurn_data (extra : Nat) {hw : Hw Socket} (up : hw.host.own.Up) :
    (lynxNetPumpTurn (.data extra) hw).2 = delivered (min (extra + 1) pumpBuf) hw := by
  let n := min (extra + 1) pumpBuf
  have opened : ¬ hw.host.own.peer = false := by simp [up.2]
  have received : mpLinkRecv (.data extra) pumpBuf hw.host.own =
      (((hw.host.own.inbox.take n).length : Int), hw.host.own.inbox.take n,
        { hw.host.own with inbox := hw.host.own.inbox.drop n }) := by
    rw [mpLinkRecv, if_neg opened, if_neg (by decide)]
  rw [lynxNetPumpTurn, received]
  simp only
  split
  · rename_i nothing
    have none : hw.host.own.inbox.take n = [] := by
      apply List.length_eq_zero_iff.mp
      omega
    rw [delivered, none]
    rfl
  · exact pushed_setOwn ..

/-- A call of `lynx_net_pump` delivers the next bytes of the stream, at least one if there are
any and the first `recv` finds some. -/
theorem lynxNetPump_delivers (pieces : List Nat) {hw : Hw Socket} (up : hw.host.own.Up) :
    ∃ k, (pieces ≠ [] → 0 < k) ∧ lynxNetPump (receivedPieces pieces) hw = delivered k hw := by
  have enters : lynxNetPumpEnters hw = true := by
    rw [lynxNetPumpEnters, up.1]
    rfl
  rw [lynxNetPump, if_pos enters]
  clear enters
  induction pieces generalizing hw with
  | nil => exact ⟨0, fun h => absurd rfl h, rfl⟩
  | cons extra pieces ih =>
    let n := min (extra + 1) pumpBuf
    have positive : 0 < n := Nat.lt_min.mpr ⟨extra.succ_pos, by decide⟩
    have turn := lynxNetPumpTurn_data extra up
    have loop : lynxNetPumpLoop (receivedPieces (extra :: pieces)) hw =
        if (lynxNetPumpTurn (.data extra) hw).1 then
          lynxNetPumpLoop (receivedPieces pieces) (lynxNetPumpTurn (.data extra) hw).2
        else (lynxNetPumpTurn (.data extra) hw).2 := rfl
    rw [loop, turn]
    split
    · have up' : (delivered n hw).host.own.Up := up
      rcases ih up' with ⟨k, -, rest⟩
      refine ⟨n + k, fun _ => Nat.add_pos_left positive k, ?_⟩
      rw [rest, delivered_delivered]
    · exact ⟨n, fun _ => positive, rfl⟩

theorem delivered_all {k : Nat} {hw : Hw Socket} (enough : hw.host.own.inbox.length ≤ k) :
    delivered k hw = (pushed hw.host.own.inbox hw).setOwn { hw.host.own with inbox := [] } := by
  rw [delivered, List.take_of_length_le enough, List.drop_of_length_le enough]

/-- Frame after frame, the stream is delivered whole and in order. -/
theorem lynxNetPump_frames (frames : List (List Nat)) (found : ∀ pieces ∈ frames, pieces ≠ [])
    {hw : Hw Socket} (up : hw.host.own.Up) :
    ∃ k, frames.length ≤ k ∧
      frames.foldl (fun hw pieces => lynxNetPump (receivedPieces pieces) hw) hw =
        delivered k hw := by
  induction frames generalizing hw with
  | nil => exact ⟨0, Nat.le_refl 0, rfl⟩
  | cons pieces frames ih =>
    rcases lynxNetPump_delivers pieces up with ⟨k, some_, first⟩
    have positive := some_ (found pieces List.mem_cons_self)
    have up' : (delivered k hw).host.own.Up := up
    rcases ih (fun pieces later => found pieces (List.mem_cons_of_mem _ later)) up'
      with ⟨j, many, rest⟩
    refine ⟨k + j, ?_, ?_⟩
    · rw [List.length_cons]
      omega
    · rw [List.foldl_cons, first, rest, delivered_delivered]

end Pump

section Sync

variable {host client : Machine Socket} {hdrAnswers answers : List SendAnswer}

theorem lynxStateSave_size (m : Machine η) : (lynxStateSave m lynxStateSize).2.length = 66419 :=
  (lynxStateSave_length (Nat.le_refl _)).1.trans lynxStateSize_eq

theorem sendState_sent (success : (sendState hdrAnswers answers host).1 = true) :
    (sendState hdrAnswers answers host).2.socket =
      { host.socket with
        outbox := host.socket.outbox ++ blobFrame (lynxStateSave host lynxStateSize).2 } :=
  mpSendBlob_sent success

/-- A connection that takes everything at once -/
theorem sendState_rest (opened : host.socket.peer = true) : (sendState [] [] host).1 = true :=
  mpSendBlob_rest _ opened

theorem recvState_sent (hdrPieces pieces : List Nat) {rest : List Byte}
    (opened : client.socket.peer = true)
    (stream : client.socket.inbox = blobFrame (lynxStateSave host lynxStateSize).2 ++ rest) :
    recvState (receivedPieces hdrPieces) (receivedPieces pieces) client =
      some (true,
        host.withHost (client.setSocket { client.socket with inbox := rest }).hw.host) := by
  have size := lynxStateSave_size host
  have within : 1 ≤ (lynxStateSave host lynxStateSize).2.length ∧
      (lynxStateSave host lynxStateSize).2.length ≤ 16 * 2 ^ 20 := by
    rw [size]
    decide
  have received := @mpRecvBlob_pieces _ rest (by rw [size]; decide) hdrPieces pieces _ opened
    stream
  rw [blobOutcome, if_pos within] at received
  have loaded := lynxStateLoad_save host
    (client.setSocket { client.socket with inbox := rest }) (Nat.le_refl lynxStateSize) []
  rw [List.append_nil] at loaded
  rw [recvState, received]
  simp only [loaded]
  rfl

/-- The host has sent its state and then bytes of its game, and the session is up at both ends.
However the stream is cut, the client has the host's machine on its own host then; it computes
what the host would, and the bytes come in through `lynx_net_pump`, in order and from the first
one on. -/
theorem state_sync {writes : List (List SendAnswer × Byte)}
    (fresh : host.socket.outbox = [])
    (success : (sendState hdrAnswers answers host).1 = true)
    (up : (linkSends writes (sendState hdrAnswers answers host).2.socket).Up)
    (opened : client.socket.Up)
    (stream : client.socket.inbox =
      (linkSends writes (sendState hdrAnswers answers host).2.socket).outbox)
    (hdrPieces pieces : List Nat) :
    ∃ m, recvState (receivedPieces hdrPieces) (receivedPieces pieces) client = some (true, m) ∧
      m.SameComponents host ∧
      m.hw.host = { client.hw.host with
        own := { client.socket with inbox := writes.map Prod.snd } } ∧
      (∀ hooks d side ops, ((console hooks d).run ops (m.withHost side)).1 =
        ((console hooks d).run ops (host.withHost side)).1) ∧
      ∀ frames : List (List Nat), (∀ found ∈ frames, found ≠ []) → writes.length ≤ frames.length →
        frames.foldl (fun hw found => lynxNetPump (receivedPieces found) hw) m.hw =
          (pushed (writes.map Prod.snd) m.hw).setOwn { client.socket with inbox := [] } := by
  let bytes := writes.map Prod.snd
  let m := host.withHost (client.setSocket { client.socket with inbox := bytes }).hw.host
  have sent : (sendState hdrAnswers answers host).2.socket =
      { host.socket with outbox := blobFrame (lynxStateSave host lynxStateSize).2 } := by
    rw [sendState_sent success, fresh, List.nil_append]
  have wire : client.socket.inbox =
      blobFrame (lynxStateSave host lynxStateSize).2 ++ bytes := by
    rw [stream, linkSends_sent up, sent]
  refine ⟨m, recvState_sent hdrPieces pieces opened.2 wire, ⟨rfl, rfl, rfl, rfl, rfl, rfl, rfl⟩,
    rfl, fun _ _ _ _ => rfl, fun frames found enough => ?_⟩
  have alive : m.hw.host.own.Up := opened
  rcases lynxNetPump_frames frames found alive with ⟨k, many, pumped⟩
  have all : m.hw.host.own.inbox.length ≤ k := by
    have size : m.hw.host.own.inbox.length = writes.length := List.length_map ..
    omega
  rw [pumped, delivered_all all]
  rfl

/-- A host that has played on while the client stands at power-on. -/
def playedHost : Machine Socket :=
  { Machine.zeroed freshSocket with
    cpu := { (Machine.zeroed freshSocket).cpu with a := 0x12, s := 0xF3, pc := 0x0245 }
    hw :=
      { Hw.zeroed freshSocket with
        ram := fun a => a.setWidth 8 ^^^ 0x5A
        timer := { phase := fun _ => 3, irqLatch := 0x04 } } }

/-- One byte follows the state, and a pump that finds it delivers it. -/
theorem playedHost_synced :
    let sent := linkSends [([], 0x55)] (sendState [] [] playedHost).2.socket
    let client := (Machine.zeroed freshSocket).setSocket { freshSocket with inbox := sent.outbox }
    ∃ m, recvState (receivedPieces [0]) (receivedPieces [7]) client = some (true, m) ∧
      m.SameComponents playedHost ∧
      lynxNetPump (receivedPieces [0]) m.hw =
        (pushed [0x55] m.hw).setOwn { freshSocket with inbox := [] } := by
  intro sent client
  have success : (sendState [] [] playedHost).1 = true := sendState_rest rfl
  have up : sent.Up := by
    unfold sent
    rw [sendState_sent success]
    exact ⟨rfl, rfl⟩
  have opened : client.socket.Up := ⟨rfl, rfl⟩
  have stream : client.socket.inbox = sent.outbox := Machine.setSocket_inbox ..
  rcases @state_sync playedHost client [] [] [([], 0x55)] rfl success up opened stream [0] [7]
    with ⟨m, received, same, -, -, pumped⟩
  exact ⟨m, received, same, pumped [[0]] (by decide) (by decide)⟩

end Sync

end LynxRecomp
