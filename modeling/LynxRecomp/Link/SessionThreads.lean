import LynxRecomp.Lib.CommandMachine
import LynxRecomp.Link.Session
import Mathlib.Data.Finset.Basic

/-!
# Hosting and joining in the background

`mp_host` and `mp_join` of `mp_session.c` leave accepting and connecting to a worker thread. The
game goes on in the meantime, and may end the session at any time. Either thread takes its
statements one after the other, each with one access to what they share; what is here holds of
every order in which the statements of both come. The texts of `s_status` only go to the menu and
are left out.
-/

namespace LynxRecomp

/-- A socket, by the number that the system gives it -/
abbrev Fd := Nat

/-- The statement that `worker` is at, with its local `c` -/
inductive WorkerPc where
  /-- `if (s_is_host)` -/
  | start
  | accept
  /-- `if (s_cancel)` after `accept` -/
  | accepted (c : Option Fd)
  | socket
  /-- `inet_pton` -/
  | address (c : Fd)
  | connect (c : Fd)
  /-- `if (!s_cancel)` after a `connect` that failed -/
  | refused (c : Fd)
  /-- `if (s_cancel)` after a `connect` that succeeded -/
  | connected (c : Fd)
  /-- `sock_close(c)`, after which `set_state(MP_DISCONNECTED)` is left to do or not -/
  | discard (c : Fd) (failed : Bool)
  /-- `set_state(MP_DISCONNECTED)`, after which `c` is left to close or not -/
  | fail (c : Option Fd)
  /-- `s_peer = c` -/
  | publish (c : Fd)
  /-- `set_state(MP_CONNECTED)` -/
  | announce
  deriving DecidableEq, Repr

namespace WorkerPc

/-- The socket in `c` -/
def fd : WorkerPc → Option Fd
  | .accepted c => c
  | .address c => some c
  | .connect c => some c
  | .refused c => some c
  | .connected c => some c
  | .discard c _ => some c
  | .fail c => c
  | .publish c => some c
  | _ => none

/-- The worker has found that it is not cancelled. -/
def late : WorkerPc → Bool
  | .publish _ => true
  | .announce => true
  | _ => false

end WorkerPc

/-- What the main thread goes on with after it has closed the peer -/
inductive After where
  /-- a call of the relay returns -/
  | relay
  /-- `mp_disconnect` returns -/
  | disconnect
  | host
  | join
  deriving DecidableEq, Repr

/-- The statement that the main thread is at -/
inductive MainPc where
  /-- outside of the session -/
  | idle
  /-- `set_state(MP_DISCONNECTED)` of `mp_link_send` and `mp_link_recv` -/
  | lost
  /-- `s_cancel = 1` -/
  | cancel (k : After)
  /-- `if (s_listen != SOCK_INVALID)` and what it guards -/
  | closeListen (k : After)
  /-- `if (s_peer != SOCK_INVALID)` -/
  | checkPeer (k : After)
  /-- `sock_close(s_peer)` -/
  | closePeer (k : After)
  /-- `s_peer = SOCK_INVALID` -/
  | clearPeer (k : After)
  /-- `SDL_WaitThread` -/
  | wait (k : After)
  /-- `set_state(MP_IDLE)` -/
  | rest (k : After)
  /-- `mp_host` from `s_is_host = true` on -/
  | host
  /-- `mp_join` from `s_is_host = false` on -/
  | join
  deriving DecidableEq, Repr

/-- The variables of the session, the places of both threads, the sockets that the system holds
open, and whether one was closed that was not open -/
structure Threads where
  state : MpState
  isHost : Bool
  listen : Option Fd
  peer : Option Fd
  thread : Bool
  cancel : Bool
  main : MainPc
  worker : Option WorkerPc
  opened : Finset Fd
  stray : Bool

/-- What happens next: the game calls the session, the connection fails a call of the relay, or a
thread takes its next statement, with what the system answers. -/
inductive ThreadsOp where
  | call (k : After)
  | relayFails
  | main (sock : Option Fd) (bound created : Bool)
  | worker (sock : Option Fd) (ok : Bool)
  deriving DecidableEq, Repr

namespace Threads

/-- The program starts with no session. -/
def start : Threads where
  state := .idle
  isHost := false
  listen := none
  peer := none
  thread := false
  cancel := false
  main := .idle
  worker := none
  opened := ∅
  stray := false

/-- `sock_close` -/
def close (c : Fd) (t : Threads) : Threads :=
  if c ∈ t.opened then { t with opened := t.opened.erase c } else { t with stray := true }

/-- `sock_close` of what a variable holds; an invalid socket is not open. -/
def closeHeld (c : Option Fd) (t : Threads) : Threads :=
  match c with
  | some c => t.close c
  | none => { t with stray := true }

/-- The system has handed out a socket. -/
def opens (c : Fd) (t : Threads) : Threads := { t with opened := insert c t.opened }

/-- `SDL_CreateThread` -/
def create (created : Bool) (t : Threads) : Threads :=
  { t with thread := created, worker := if created then some .start else none, main := .idle }

/-- `mp_host` after `mp_disconnect`; there is no worker. -/
def hostStep (sock : Option Fd) (bound created : Bool) (t : Threads) : Threads :=
  let t := { t with isHost := true, cancel := false }
  match sock with
  | none => { t with main := .idle }
  | some l =>
    let t := { t.opens l with listen := some l }
    if bound then create created { t with state := .hosting }
    else { t.close l with listen := none, main := .idle }

/-- `mp_join` after `mp_disconnect`; there is no worker. -/
def joinStep (created : Bool) (t : Threads) : Threads :=
  create created { t with isHost := false, cancel := false, state := .connecting }

/-- The next statement of the main thread -/
def mainStep (sock : Option Fd) (bound created : Bool) (t : Threads) : Threads :=
  match t.main with
  | .idle => t
  | .lost => { t with state := .disconnected, main := .closePeer .relay }
  | .cancel k => { t with cancel := true, main := .closeListen k }
  | .closeListen k =>
    if t.listen = none then { t with main := .checkPeer k }
    else { t.closeHeld t.listen with listen := none, main := .checkPeer k }
  | .checkPeer k => { t with main := if t.peer = none then .wait k else .closePeer k }
  | .closePeer k => { t.closeHeld t.peer with main := .clearPeer k }
  | .clearPeer k => { t with peer := none, main := if k = .relay then .idle else .wait k }
  | .wait k =>
    -- the thread is waited for until it has returned
    if t.thread ∧ t.worker ≠ none then t else { t with thread := false, main := .rest k }
  | .rest k =>
    { t with
      state := .idle
      main := if k = .host then .host else if k = .join then .join else .idle }
  | .host => hostStep sock bound created t
  | .join => joinStep created t

/-- The next statement of `worker`; `none` is a thread that has returned. -/
def workerStep (sock : Option Fd) (ok : Bool) (t : Threads) : Threads :=
  match t.worker with
  | none => t
  | some .start => { t with worker := some (if t.isHost then .accept else .socket) }
  | some .accept =>
    match sock with
    | some c => { t.opens c with worker := some (.accepted (some c)) }
    | none => { t with worker := some (.accepted none) }
  | some (.accepted (some c)) =>
    { t with worker := some (if t.cancel then .discard c false else .publish c) }
  | some (.accepted none) => { t with worker := if t.cancel then none else some (.fail none) }
  | some .socket =>
    match sock with
    | some c => { t.opens c with worker := some (.address c) }
    | none => { t with worker := some (.fail none) }
  | some (.address c) => { t with worker := some (if ok then .connect c else .discard c true) }
  | some (.connect c) => { t with worker := some (if ok then .connected c else .refused c) }
  | some (.refused c) =>
    { t with worker := some (if t.cancel then .discard c false else .fail (some c)) }
  | some (.connected c) =>
    { t with worker := some (if t.cancel then .discard c false else .publish c) }
  | some (.discard c failed) =>
    { t.close c with worker := if failed then some (.fail none) else none }
  | some (.fail c) => { t with state := .disconnected, worker := c.map fun c => .discard c false }
  | some (.publish c) => { t with peer := some c, worker := some .announce }
  | some .announce => { t with state := .connected, worker := none }

/-- The system hands out no socket that is open. -/
def fresh (sock : Option Fd) (t : Threads) : Bool := sock.all fun c => decide (c ∉ t.opened)

def step (op : ThreadsOp) (t : Threads) : Threads :=
  match op with
  | .call k => if t.main = .idle ∧ k ≠ .relay then { t with main := .cancel k } else t
  | .relayFails => if t.main = .idle ∧ t.peer ≠ none then { t with main := .lost } else t
  | .main sock bound created => if fresh sock t then mainStep sock bound created t else t
  | .worker sock ok => if fresh sock t then workerStep sock ok t else t

/-- Both threads, step by step in any order -/
def machine : CommandMachine Threads ThreadsOp Unit where
  step op t := ((), t.step op)

/-- The socket that the worker has and no variable does -/
def ownFd (t : Threads) : Option Fd := t.worker.bind WorkerPc.fd

section Worker

/-- A worker that goes on to `w` is not late, or has just found that it is not cancelled. -/
def Goes (t : Threads) (w : Option WorkerPc) : Prop :=
  ∀ v, w = some v → v.late = true → t.cancel = false ∧ ∃ c, v = .publish c

/-- What a statement of the worker can do -/
inductive WorkerEffect (t : Threads) : Threads → Prop where
  | returned : t.worker = none → WorkerEffect t t
  | moves {v : WorkerPc} {w : Option WorkerPc} (st : MpState) : t.worker = some v →
    v.late = false → w.bind WorkerPc.fd = v.fd → t.Goes w → st = t.state ∨ st = .disconnected →
    WorkerEffect t { t with state := st, worker := w }
  | opens {v w : WorkerPc} {c : Fd} : t.worker = some v → v.late = false → v.fd = none →
    c ∉ t.opened → w.fd = some c → w.late = false →
    WorkerEffect t { t.opens c with worker := some w }
  | closes {v : WorkerPc} {w : Option WorkerPc} {c : Fd} : t.worker = some v → v.late = false →
    v.fd = some c → w.bind WorkerPc.fd = none → t.Goes w →
    WorkerEffect t { t.close c with worker := w }
  | publishes {c : Fd} : t.worker = some (.publish c) →
    WorkerEffect t { t with peer := some c, worker := some .announce }
  | announces : t.worker = some .announce →
    WorkerEffect t { t with state := .connected, worker := none }

variable {t : Threads}

theorem goes_none : t.Goes none := fun _ none => nomatch none

theorem goes_early {v : WorkerPc} (early : v.late = false) : t.Goes (some v) := by
  rintro w same late
  rw [← Option.some.inj same, early] at late
  exact absurd late Bool.false_ne_true

/-- The check of `s_cancel` -/
theorem moves_checked {v : WorkerPc} {c : Fd} (here : t.worker = some v) (early : v.late = false)
    (fd : v.fd = some c) :
    WorkerEffect t
      { t with worker := some (if t.cancel then .discard c false else .publish c) } := by
  by_cases cancel : t.cancel = true
  · rw [if_pos cancel]
    exact .moves t.state here early fd.symm (goes_early rfl) (.inl rfl)
  · rw [if_neg cancel]
    refine .moves t.state here early fd.symm ?_ (.inl rfl)
    rintro w same -
    exact ⟨Bool.not_eq_true _ ▸ cancel, c, (Option.some.inj same).symm⟩

theorem workerStep_effect {sock : Option Fd} (new : fresh sock t = true) (ok : Bool) :
    WorkerEffect t (t.workerStep sock ok) := by
  have unused (c : Fd) (handed : sock = some c) : c ∉ t.opened := by
    rw [handed] at new
    exact of_decide_eq_true new
  unfold workerStep
  split
  case h_1 returned => exact .returned returned
  case h_2 here =>
    split
    · exact .moves t.state here rfl rfl (goes_early rfl) (.inl rfl)
    · exact .moves t.state here rfl rfl (goes_early rfl) (.inl rfl)
  case h_3 here =>
    cases sock with
    | none => exact .moves t.state here rfl rfl (goes_early rfl) (.inl rfl)
    | some c => exact .opens here rfl rfl (unused c rfl) rfl rfl
  case h_4 here => exact moves_checked here rfl rfl
  case h_5 here =>
    split
    · exact .moves t.state here rfl rfl goes_none (.inl rfl)
    · exact .moves t.state here rfl rfl (goes_early rfl) (.inl rfl)
  case h_6 here =>
    cases sock with
    | none => exact .moves t.state here rfl rfl (goes_early rfl) (.inl rfl)
    | some c => exact .opens here rfl rfl (unused c rfl) rfl rfl
  case h_7 here =>
    cases ok with
    | true => exact .moves t.state here rfl rfl (goes_early rfl) (.inl rfl)
    | false => exact .moves t.state here rfl rfl (goes_early rfl) (.inl rfl)
  case h_8 here =>
    cases ok with
    | true => exact .moves t.state here rfl rfl (goes_early rfl) (.inl rfl)
    | false => exact .moves t.state here rfl rfl (goes_early rfl) (.inl rfl)
  case h_9 here =>
    split
    · exact .moves t.state here rfl rfl (goes_early rfl) (.inl rfl)
    · exact .moves t.state here rfl rfl (goes_early rfl) (.inl rfl)
  case h_10 here => exact moves_checked here rfl rfl
  case h_11 failed here =>
    cases failed with
    | true => exact .closes here rfl rfl rfl (goes_early rfl)
    | false => exact .closes here rfl rfl rfl goes_none
  case h_12 c here =>
    cases c with
    | none => exact .moves .disconnected here rfl rfl goes_none (.inr rfl)
    | some c => exact .moves .disconnected here rfl rfl (goes_early rfl) (.inr rfl)
  case h_13 here => exact .publishes here
  case h_14 here => exact .announces here

end Worker

section Sane

/-- The peer has been closed, and `s_peer` still says which one it was. -/
def Clearing (t : Threads) : Prop := ∃ k, t.main = .clearPeer k

/-- The peer is about to be closed. -/
def Closing (t : Threads) : Prop := t.main = .lost ∨ ∃ k, t.main = .closePeer k

/-- Nothing is closed but what is open: the variables and the worker hold sockets that are
open, each its own. -/
structure Sane (t : Threads) : Prop where
  noStray : t.stray = false
  listen : ∀ l, t.listen = some l → l ∈ t.opened
  peer : ∀ p, t.peer = some p → ¬t.Clearing → p ∈ t.opened ∧ t.listen ≠ some p
  closing : t.Closing → t.peer ≠ none
  own : ∀ c, t.ownFd = some c →
    c ∈ t.opened ∧ t.listen ≠ some c ∧ (¬t.Clearing → t.peer ≠ some c)

theorem close_of_mem {c : Fd} {t : Threads} (member : c ∈ t.opened) :
    t.close c = { t with opened := t.opened.erase c } := if_pos member

variable {t t' : Threads}

theorem ownFd_some {v : WorkerPc} (here : t.worker = some v) : t.ownFd = v.fd := by
  rw [ownFd, here]
  rfl

theorem start_sane : start.Sane where
  noStray := rfl
  listen := fun _ none => nomatch none
  peer := fun _ none => nomatch none
  closing := fun closing => by
    rcases closing with other | ⟨_, other⟩
    · nomatch other
    · nomatch other
  own := fun _ none => nomatch none

theorem Sane.worker (sane : t.Sane) (effect : WorkerEffect t t') : t'.Sane := by
  cases effect with
  | returned => exact sane
  | moves st here early same goes stays =>
    have own := sane.own
    rw [ownFd_some here] at own
    exact ⟨sane.noStray, sane.listen, sane.peer, sane.closing, fun c has => own c (same ▸ has)⟩
  | opens here early none_ new fd early' =>
    rename_i v w c
    have wide (d : Fd) (member : d ∈ t.opened) : d ∈ insert c t.opened :=
      Finset.mem_insert_of_mem member
    refine ⟨sane.noStray, fun l has => wide l (sane.listen l has), fun p has clear => ?_,
      sane.closing, fun d has => ?_⟩
    · exact ⟨wide p (sane.peer p has clear).1, (sane.peer p has clear).2⟩
    · obtain rfl : c = d := Option.some.inj (fd.symm.trans has)
      exact ⟨Finset.mem_insert_self c _, fun same => new (sane.listen c same),
        fun clear same => new (sane.peer c same clear).1⟩
  | closes here early fd none_ goes =>
    rename_i v w c
    have held := sane.own c ((ownFd_some here).trans fd)
    have keeps (d : Fd) (member : d ∈ t.opened) (other : d ≠ c) : d ∈ t.opened.erase c :=
      Finset.mem_erase.mpr ⟨other, member⟩
    rw [close_of_mem held.1]
    refine ⟨sane.noStray, fun l has => ?_, fun p has clear => ?_, sane.closing, fun d has => ?_⟩
    · exact keeps l (sane.listen l has) fun same => held.2.1 (same ▸ has)
    · exact ⟨keeps p (sane.peer p has clear).1 fun same => held.2.2 clear (same ▸ has),
        (sane.peer p has clear).2⟩
    · exact absurd (none_.symm.trans has) (Option.some_ne_none d).symm
  | publishes here =>
    rename_i c
    have held := sane.own c (ownFd_some here)
    refine ⟨sane.noStray, sane.listen, fun p has _ => ?_, fun _ => Option.some_ne_none c,
      fun _ has => nomatch has⟩
    obtain rfl : c = p := Option.some.inj has
    exact ⟨held.1, held.2.1⟩
  | announces here =>
    exact ⟨sane.noStray, sane.listen, sane.peer, sane.closing, fun _ has => nomatch has⟩

/-- Statements that touch no socket -/
theorem Sane.moved (sane : t.Sane) (clear : ¬t.Clearing) (st : MpState) (host thread cancel : Bool)
    {m : MainPc} (closing : m = .lost ∨ (∃ k, m = .closePeer k) → t.peer ≠ none) :
    Sane { t with state := st, isHost := host, thread := thread, cancel := cancel, main := m } :=
  ⟨sane.noStray, sane.listen, fun p has _ => sane.peer p has clear, closing, fun c has =>
    ⟨(sane.own c has).1, (sane.own c has).2.1, fun _ => (sane.own c has).2.2 clear⟩⟩

theorem Sane.create (sane : t.Sane) (clear : ¬t.Clearing) (created : Bool) :
    (t.create created).Sane := by
  have none_ : (t.create created).ownFd = none := by
    cases created <;> rfl
  refine ⟨sane.noStray, sane.listen, fun p has _ => sane.peer p has clear, fun closing => ?_,
    fun c has => ?_⟩
  · rcases closing with other | ⟨_, other⟩
    · nomatch other
    · nomatch other
  · rw [none_] at has
    nomatch has

theorem not_clearing {m : MainPc} (here : t.main = m) (other : ∀ k, m ≠ .clearPeer k) :
    ¬t.Clearing :=
  fun clearing => clearing.elim fun k same => other k (here.symm.trans same)

theorem not_closing {m : MainPc} {P : Prop} (lost : m ≠ .lost) (other : ∀ k, m ≠ .closePeer k) :
    m = .lost ∨ (∃ k, m = .closePeer k) → P := by
  rintro (same | ⟨k, same⟩)
  · exact absurd same lost
  · exact absurd same (other k)

theorem Sane.closeListen (sane : t.Sane) (clear : ¬t.Clearing) {l : Fd} (has : t.listen = some l)
    {m : MainPc} (lost : m ≠ .lost) (other : ∀ k, m ≠ .closePeer k) :
    Sane { t.close l with listen := none, main := m } := by
  have keeps (d : Fd) (member : d ∈ t.opened) (other : d ≠ l) : d ∈ t.opened.erase l :=
    Finset.mem_erase.mpr ⟨other, member⟩
  rw [close_of_mem (sane.listen l has)]
  refine ⟨sane.noStray, fun _ none_ => absurd none_ (by simp), fun p peer _ => ?_,
    not_closing lost other, fun c own => ?_⟩
  · have held := sane.peer p peer clear
    exact ⟨keeps p held.1 fun same => held.2 (same ▸ has), by simp⟩
  · have held := sane.own c own
    exact ⟨keeps c held.1 fun same => held.2.1 (same ▸ has), by simp, fun _ => held.2.2 clear⟩

theorem Sane.closePeer (sane : t.Sane) (clear : ¬t.Clearing) {p : Fd} (has : t.peer = some p)
    (k : After) : Sane { t.close p with main := .clearPeer k } := by
  have held := sane.peer p has clear
  have keeps (d : Fd) (member : d ∈ t.opened) (other : d ≠ p) : d ∈ t.opened.erase p :=
    Finset.mem_erase.mpr ⟨other, member⟩
  rw [close_of_mem held.1]
  refine ⟨sane.noStray, fun l listen => ?_, fun q _ clear => absurd ⟨k, rfl⟩ clear,
    not_closing (by simp) (by simp), fun c own => ?_⟩
  · exact keeps l (sane.listen l listen) fun same => held.2 (same ▸ listen)
  · exact ⟨keeps c (sane.own c own).1 fun same => (sane.own c own).2.2 clear (same ▸ has),
      (sane.own c own).2.1, fun clear => absurd ⟨k, rfl⟩ clear⟩

theorem Sane.clearPeer (sane : t.Sane) {m : MainPc} (none_ : ∀ k, m ≠ .closePeer k)
    (lost : m ≠ .lost) : Sane { t with peer := none, main := m } :=
  ⟨sane.noStray, sane.listen, fun _ none_ => absurd none_ (by simp), not_closing lost none_,
    fun c own => ⟨(sane.own c own).1, (sane.own c own).2.1, fun _ => by simp⟩⟩

theorem Sane.hostStep (sane : t.Sane) (clear : ¬t.Clearing) {sock : Option Fd}
    (new : fresh sock t = true) (bound created : Bool) :
    (t.hostStep sock bound created).Sane := by
  cases sock with
  | none => exact sane.moved clear t.state true t.thread false (not_closing (by simp) (by simp))
  | some l =>
    have unused : l ∉ t.opened := of_decide_eq_true new
    have listens (st : MpState) : Sane
        { t.opens l with isHost := true, cancel := false, listen := some l, state := st } := by
      have other (d : Fd) (member : d ∈ t.opened) : some l ≠ some d :=
        fun same => unused (Option.some.inj same ▸ member)
      refine ⟨sane.noStray, fun d has => ?_, fun p has _ => ?_, sane.closing, fun c has => ?_⟩
      · exact Option.some.inj has ▸ Finset.mem_insert_self l _
      · have held := (sane.peer p has clear).1
        exact ⟨Finset.mem_insert_of_mem held, other p held⟩
      · have held := sane.own c has
        exact ⟨Finset.mem_insert_of_mem held.1, other c held.1, fun _ => held.2.2 clear⟩
    cases bound with
    | true => exact (listens .hosting).create clear created
    | false => exact (listens t.state).closeListen clear rfl (by simp) (by simp)

theorem Sane.mainStep (sane : t.Sane) {sock : Option Fd} (new : fresh sock t = true)
    (bound created : Bool) : (t.mainStep sock bound created).Sane := by
  unfold Threads.mainStep
  split
  case h_1 => exact sane
  case h_2 here =>
    exact sane.moved (not_clearing here (by simp)) .disconnected t.isHost t.thread t.cancel
      fun _ => sane.closing (.inl here)
  case h_3 here =>
    exact sane.moved (not_clearing here (by simp)) t.state t.isHost t.thread true
      (not_closing (by simp) (by simp))
  case h_4 k here =>
    have clear := not_clearing here (by simp)
    cases has : t.listen with
    | none =>
      have moved := sane.moved clear t.state t.isHost t.thread t.cancel (m := .checkPeer k)
        (not_closing (by simp) (by simp))
      rw [has] at moved
      exact moved
    | some l => exact sane.closeListen clear has (by simp) (by simp)
  case h_5 k here =>
    have clear := not_clearing here (by simp)
    by_cases none_ : t.peer = none
    · rw [if_pos none_]
      exact sane.moved clear t.state t.isHost t.thread t.cancel (not_closing (by simp) (by simp))
    · rw [if_neg none_]
      exact sane.moved clear t.state t.isHost t.thread t.cancel fun _ => none_
  case h_6 k here =>
    have clear := not_clearing here (by simp)
    rcases Option.ne_none_iff_exists'.mp (sane.closing (.inr ⟨k, here⟩)) with ⟨p, has⟩
    rw [has]
    exact sane.closePeer clear has k
  case h_7 k here =>
    apply sane.clearPeer
    · intro k'
      split <;> simp
    · split <;> simp
  case h_8 here =>
    split
    · exact sane
    · exact sane.moved (not_clearing here (by simp)) t.state t.isHost false t.cancel
        (not_closing (by simp) (by simp))
  case h_9 k here =>
    refine sane.moved (not_clearing here (by simp)) .idle t.isHost t.thread t.cancel
      (not_closing ?_ ?_)
    · cases k <;> simp
    · cases k <;> simp
  case h_10 here => exact sane.hostStep (not_clearing here (by simp)) new bound created
  case h_11 here =>
    have moved := sane.moved (not_clearing here (by simp)) .connecting false t.thread false
      (m := .join) (not_closing (by simp) (by simp))
    rw [← here] at moved
    exact moved.create (not_clearing here (by simp)) created

theorem Sane.step (sane : t.Sane) (op : ThreadsOp) : (t.step op).Sane := by
  cases op with
  | call k =>
    rw [Threads.step]
    split
    · rename_i calls
      exact sane.moved (not_clearing calls.1 (by simp)) t.state t.isHost t.thread t.cancel
        (not_closing (by simp) (by simp))
    · exact sane
  | relayFails =>
    rw [Threads.step]
    split
    · rename_i fails
      exact sane.moved (not_clearing fails.1 (by simp)) t.state t.isHost t.thread t.cancel
        fun _ => fails.2
    · exact sane
  | main sock bound created =>
    rw [Threads.step]
    split
    · rename_i new
      exact sane.mainStep new bound created
    · exact sane
  | worker sock ok =>
    rw [Threads.step]
    split
    · rename_i new
      exact sane.worker (workerStep_effect new ok)
    · exact sane

end Sane

end Threads

end LynxRecomp
