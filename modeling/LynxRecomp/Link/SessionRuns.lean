import LynxRecomp.Link.SessionThreads

/-!
# No socket is lost

Where both threads of a session keep out of each other's way, each socket that is open is known
to one of them at any time, and a session that has ended has left nothing open. What the way is,
and what becomes of a session that gets into it, is stated here too.
-/

namespace LynxRecomp

namespace Threads

section Tidy

/-- `mp_disconnect` looks at `s_peer` while the worker is not about to set it, and no call of the
relay fails before the worker has said that it is connected. -/
def Timely (op : ThreadsOp) (t : Threads) : Prop :=
  match op with
  | .main _ _ _ => (∃ k, t.main = .checkPeer k) → ∀ c, t.worker ≠ some (.publish c)
  | .relayFails => t.worker ≠ some .announce
  | _ => True

/-- What holds where the main thread is at `m` -/
def Phase (t : Threads) : MainPc → Prop
  | .idle => t.peer ≠ none ↔ t.state = .connected ∨ t.worker = some .announce
  | .lost => t.peer ≠ none ∧ t.worker = none
  | .cancel k => k ≠ .relay
  | .closeListen k => k ≠ .relay ∧ t.cancel = true
  | .checkPeer k => k ≠ .relay ∧ t.cancel = true ∧ t.listen = none
  | .closePeer k | .clearPeer k =>
    t.peer ≠ none ∧ (k = .relay → t.worker = none ∧ t.state = .disconnected) ∧
      (k ≠ .relay → t.cancel = true ∧ t.listen = none)
  | .wait k =>
    k ≠ .relay ∧ t.cancel = true ∧ t.listen = none ∧ t.peer = none ∧
      ∀ c, t.worker ≠ some (.publish c)
  | .rest k => k ≠ .relay ∧ t.listen = none ∧ t.peer = none ∧ t.worker = none
  | .host | .join => t.listen = none ∧ t.peer = none ∧ t.worker = none ∧ t.state = .idle

/-- No socket is lost: each that is open is in a variable or with the worker. -/
structure Tidy (t : Threads) : Prop where
  thread : t.worker ≠ none → t.thread = true
  early : ∀ w, t.worker = some w → w ≠ .announce → t.peer = none
  idle : t.state = .idle → t.listen = none ∧ t.peer = none ∧ t.worker = none
  accounted : ∀ c ∈ t.opened, t.listen = some c ∨ t.peer = some c ∧ ¬t.Clearing ∨ t.ownFd = some c
  phase : t.Phase t.main

variable {t t' : Threads}

theorem start_tidy : start.Tidy where
  thread := fun some_ => absurd rfl some_
  early := fun _ some_ => absurd some_ (by simp [start])
  idle := fun _ => ⟨rfl, rfl, rfl⟩
  accounted := fun c member => absurd member (Finset.notMem_empty c)
  phase := by
    unfold Phase start
    simp

theorem not_announce {v : WorkerPc} (early : v.late = false) : v ≠ .announce := by
  rintro rfl
  exact Bool.false_ne_true early.symm

/-- What the worker leaves alone -/
theorem WorkerEffect.keeps (effect : WorkerEffect t t') :
    t'.main = t.main ∧ t'.cancel = t.cancel ∧ t'.listen = t.listen ∧ t'.thread = t.thread := by
  cases effect with
  | closes =>
    unfold close
    split <;> exact ⟨rfl, rfl, rfl, rfl⟩
  | _ => exact ⟨rfl, rfl, rfl, rfl⟩

theorem WorkerEffect.of_returned (effect : WorkerEffect t t') (returned : t.worker = none) :
    t' = t := by
  cases effect with
  | returned => rfl
  | moves _ here | opens here | closes here | publishes here | announces here =>
    exact absurd (returned.symm.trans here) (by simp)

theorem WorkerEffect.peer (effect : WorkerEffect t t') :
    t'.peer = t.peer ∨ ∃ c, t.worker = some (.publish c) ∧ t'.peer = some c := by
  cases effect with
  | publishes here => exact .inr ⟨_, here, rfl⟩
  | closes =>
    unfold close
    split <;> exact .inl rfl
  | _ => exact .inl rfl

/-- Once it is cancelled, the worker does not get to publish a socket. -/
theorem WorkerEffect.cancelled (effect : WorkerEffect t t') (cancel : t.cancel = true)
    (before : ∀ c, t.worker ≠ some (.publish c)) (c : Fd) : t'.worker ≠ some (.publish c) := by
  have going {w : Option WorkerPc} (goes : t.Goes w) : w ≠ some (.publish c) :=
    fun same => Bool.false_ne_true ((goes _ same rfl).1.symm.trans cancel)
  cases effect with
  | returned => exact before c
  | moves _ _ _ _ goes => exact going goes
  | opens _ _ _ _ _ early =>
    rintro same
    rw [Option.some.inj same] at early
    exact Bool.false_ne_true early.symm
  | closes _ _ _ _ goes =>
    unfold close
    split <;> exact going goes
  | publishes => simp
  | announces => simp

/-- While the peer is there, the worker has at most one thing left to say. -/
theorem Tidy.peer_kept (tidy : t.Tidy) (effect : WorkerEffect t t') (peer : t.peer ≠ none) :
    t'.peer ≠ none := by
  rcases effect.peer with same | ⟨c, publishes, -⟩
  · rw [same]
    exact peer
  · exact absurd (tidy.early _ publishes (by simp)) peer

theorem Tidy.phase_idle (tidy : t.Tidy) (effect : WorkerEffect t t') (here : t.main = .idle) :
    t'.Phase .idle := by
  have phase := tidy.phase
  rw [here] at phase
  have absent {v : WorkerPc} (at_ : t.worker = some v) (early : v.late = false) : t.peer = none :=
    tidy.early v at_ (not_announce early)
  have going {w : Option WorkerPc} (goes : t.Goes w) : w ≠ some .announce := by
    rintro same
    rcases goes _ same rfl with ⟨-, c, other⟩
    exact absurd other (by simp)
  have apart {v : WorkerPc} (at_ : t.worker = some v) (early : v.late = false) :
      t.state ≠ .connected :=
    fun connected => phase.mpr (.inl connected) (absent at_ early)
  cases effect with
  | returned => exact phase
  | moves st at_ early _ goes stays =>
    refine ⟨fun peer => absurd (absent at_ early) peer, fun up => ?_⟩
    rcases up with connected | announce
    · rcases stays with same | other
      · exact absurd (same.symm.trans connected) (apart at_ early)
      · exact absurd (other.symm.trans connected) (by simp)
    · exact absurd announce (going goes)
  | opens at_ early _ _ _ early' =>
    refine ⟨fun peer => absurd (absent at_ early) peer, fun up => ?_⟩
    rcases up with connected | announce
    · exact absurd connected (apart at_ early)
    · exact absurd (Option.some.inj announce) (not_announce early')
  | closes at_ early _ _ goes =>
    unfold close
    split
    all_goals
      refine ⟨fun peer => absurd (absent at_ early) peer, fun up => ?_⟩
      rcases up with connected | announce
      · exact absurd connected (apart at_ early)
      · exact absurd announce (going goes)
  | publishes => exact ⟨fun _ => .inr rfl, fun _ => Option.some_ne_none _⟩
  | announces at_ => exact ⟨fun _ => .inl rfl, fun _ => phase.mpr (.inr at_)⟩

theorem Tidy.phase_worker (tidy : t.Tidy) (effect : WorkerEffect t t') : t'.Phase t'.main := by
  have phase := tidy.phase
  rcases effect.keeps with ⟨main, cancel, listen, -⟩
  rw [main]
  have still (returned : t.worker = none) : t'.Phase t.main := by
    rw [effect.of_returned returned]
    exact phase
  cases here : t.main with
  | idle => exact tidy.phase_idle effect here
  | lost =>
    rw [here] at phase still
    exact still phase.2
  | cancel k =>
    rw [here] at phase
    exact phase
  | closeListen k =>
    rw [here] at phase
    exact ⟨phase.1, cancel.trans phase.2⟩
  | checkPeer k =>
    rw [here] at phase
    exact ⟨phase.1, cancel.trans phase.2.1, listen.trans phase.2.2⟩
  | closePeer k | clearPeer k =>
    rw [here] at phase
    rcases phase with ⟨peer, relay, other⟩
    refine ⟨tidy.peer_kept effect peer, fun same => ?_, fun differs => ?_⟩
    · rw [effect.of_returned (relay same).1]
      exact relay same
    · exact ⟨cancel.trans (other differs).1, listen.trans (other differs).2⟩
  | wait k =>
    rw [here] at phase
    rcases phase with ⟨other, cancelled, none_, peer, before⟩
    refine ⟨other, cancel.trans cancelled, listen.trans none_, ?_,
      effect.cancelled cancelled before⟩
    rcases effect.peer with same | ⟨c, publishes, -⟩
    · exact same.trans peer
    · exact absurd publishes (before c)
  | rest k =>
    rw [here] at phase still
    exact still phase.2.2.2
  | host | join =>
    rw [here] at phase still
    exact still phase.2.2.1

theorem Tidy.worker (tidy : t.Tidy) (sane : t.Sane) (effect : WorkerEffect t t') : t'.Tidy := by
  have phase := tidy.phase_worker effect
  have accounted := tidy.accounted
  have absent {v : WorkerPc} (at_ : t.worker = some v) (early : v.late = false) : t.peer = none :=
    tidy.early v at_ (not_announce early)
  have at_work {v : WorkerPc} (at_ : t.worker = some v) : t.worker ≠ none := by simp [at_]
  cases effect with
  | returned => exact tidy
  | moves st at_ early same goes stays =>
    refine ⟨fun _ => tidy.thread (at_work at_), fun _ _ _ => absent at_ early, fun idle => ?_,
      fun c member => ?_, phase⟩
    · rcases stays with rfl | rfl
      · exact absurd (tidy.idle idle).2.2 (at_work at_)
      · exact absurd idle (by simp)
    · rw [ownFd_some at_, ← same] at accounted
      exact accounted c member
  | opens at_ early none_ new fd early' =>
    refine ⟨fun _ => tidy.thread (at_work at_), fun _ _ _ => absent at_ early,
      fun idle => absurd (tidy.idle idle).2.2 (at_work at_), fun c member => ?_, phase⟩
    rcases Finset.mem_insert.mp member with rfl | old
    · exact .inr (.inr fd)
    · rw [ownFd_some at_, none_] at accounted
      rcases accounted c old with listen | peer | own
      · exact .inl listen
      · exact .inr (.inl peer)
      · exact absurd own (by simp)
  | closes at_ early fd none_ goes =>
    have own := (ownFd_some at_).trans fd
    rw [close_of_mem (sane.own _ own).1] at phase ⊢
    refine ⟨fun _ => tidy.thread (at_work at_), fun _ _ _ => absent at_ early,
      fun idle => absurd (tidy.idle idle).2.2 (at_work at_), fun c member => ?_, phase⟩
    rcases Finset.mem_erase.mp member with ⟨other, old⟩
    rcases accounted c old with listen | peer | same
    · exact .inl listen
    · exact .inr (.inl peer)
    · exact absurd (Option.some.inj (same.symm.trans own)) other
  | publishes at_ =>
    have peer := tidy.early _ at_ (by simp)
    refine ⟨fun _ => tidy.thread (at_work at_), fun w same other => ?_,
      fun idle => absurd (tidy.idle idle).2.2 (at_work at_), fun c member => ?_, phase⟩
    · exact absurd (Option.some.inj same).symm other
    · rcases accounted c member with listen | ⟨same, -⟩ | own
      · exact .inl listen
      · exact absurd (peer.symm.trans same) (by simp)
      · refine .inr (.inl ⟨((ownFd_some at_).symm.trans own), ?_⟩)
        rintro ⟨k, clearing⟩
        have at_clear := tidy.phase
        rw [show t.main = .clearPeer k from clearing] at at_clear
        exact at_clear.1 peer
  | announces at_ =>
    refine ⟨fun some_ => absurd rfl some_, fun _ same => absurd same (by simp),
      fun idle => absurd idle (by simp), fun c member => ?_, phase⟩
    rcases accounted c member with listen | peer | own
    · exact .inl listen
    · exact .inr (.inl peer)
    · exact absurd ((ownFd_some at_).symm.trans own) (by simp [WorkerPc.fd])

/-- Statements that touch no socket -/
theorem Tidy.moved (tidy : t.Tidy) {st : MpState} (cancel : Bool) {m : MainPc}
    (idle : st = .idle → t.state = .idle) (other : ∀ k, m ≠ .clearPeer k)
    (phase : Phase { t with state := st, cancel := cancel, main := m } m) :
    Tidy { t with state := st, cancel := cancel, main := m } := by
  refine ⟨tidy.thread, tidy.early, fun now => tidy.idle (idle now), fun c member => ?_, phase⟩
  rcases tidy.accounted c member with listen | ⟨peer, -⟩ | own
  · exact .inl listen
  · exact .inr (.inl ⟨peer, not_clearing rfl other⟩)
  · exact .inr (.inr own)

theorem Tidy.closeListen (tidy : t.Tidy) (sane : t.Sane) {k : After}
    (here : t.main = .closeListen k) {l : Fd} (has : t.listen = some l) :
    Tidy { t.close l with listen := none, main := .checkPeer k } := by
  have phase := tidy.phase
  rw [here] at phase
  rw [close_of_mem (sane.listen l has)]
  refine ⟨tidy.thread, tidy.early, fun now => ⟨rfl, (tidy.idle now).2⟩, fun c member => ?_,
    ⟨phase.1, phase.2, rfl⟩⟩
  rcases Finset.mem_erase.mp member with ⟨other, old⟩
  rcases tidy.accounted c old with listen | ⟨peer, -⟩ | own
  · exact absurd (Option.some.inj (listen.symm.trans has)) other
  · exact .inr (.inl ⟨peer, not_clearing rfl (by simp)⟩)
  · exact .inr (.inr own)

theorem Tidy.closePeer (tidy : t.Tidy) (sane : t.Sane) {k : After} (here : t.main = .closePeer k)
    {p : Fd} (has : t.peer = some p) : Tidy { t.close p with main := .clearPeer k } := by
  have phase := tidy.phase
  rw [here] at phase
  rw [close_of_mem (sane.peer p has (not_clearing here (by simp))).1]
  refine ⟨tidy.thread, tidy.early, tidy.idle, fun c member => ?_, phase⟩
  rcases Finset.mem_erase.mp member with ⟨other, old⟩
  rcases tidy.accounted c old with listen | ⟨peer, -⟩ | own
  · exact .inl listen
  · exact absurd (Option.some.inj (peer.symm.trans has)) other
  · exact .inr (.inr own)

theorem Tidy.clearPeer (tidy : t.Tidy) {k : After} (here : t.main = .clearPeer k) :
    Tidy { t with peer := none, main := if k = .relay then .idle else .wait k } := by
  have phase := tidy.phase
  rw [here] at phase
  rcases phase with ⟨peer, relay, other⟩
  refine ⟨tidy.thread, fun _ _ _ => rfl, fun now => absurd (tidy.idle now).2.1 peer,
    fun c member => ?_, ?_⟩
  · rcases tidy.accounted c member with listen | ⟨-, clear⟩ | own
    · exact .inl listen
    · exact absurd ⟨k, here⟩ clear
    · exact .inr (.inr own)
  · by_cases same : k = .relay
    · simp only [if_pos same, Phase, (relay same).1, (relay same).2]
      simp
    · simp only [if_neg same]
      refine ⟨same, (other same).1, (other same).2, rfl, fun c publishes => ?_⟩
      exact peer (tidy.early _ publishes (by simp))

/-- A session that has ended has nothing open. -/
theorem Tidy.nothing (tidy : t.Tidy) (listen : t.listen = none) (peer : t.peer = none)
    (returned : t.worker = none) : t.opened = ∅ := by
  apply Finset.eq_empty_of_forall_notMem
  intro c member
  rcases tidy.accounted c member with has | ⟨has, -⟩ | has
  · exact absurd (listen.symm.trans has) (by simp)
  · exact absurd (peer.symm.trans has) (by simp)
  · rw [ownFd, returned] at has
    exact absurd has (by simp)

theorem Tidy.rest (tidy : t.Tidy) {k : After} (here : t.main = .rest k) :
    Tidy { t with
      state := .idle
      main := if k = .host then .host else if k = .join then .join else .idle } := by
  have phase := tidy.phase
  rw [here] at phase
  rcases phase with ⟨other, listen, peer, returned⟩
  refine ⟨tidy.thread, tidy.early, fun _ => ⟨listen, peer, returned⟩, fun c member => ?_, ?_⟩
  · rw [tidy.nothing listen peer returned] at member
    exact absurd member (Finset.notMem_empty c)
  · cases k with
    | relay => exact absurd rfl other
    | disconnect => simp [Phase, peer, returned]
    | host => exact ⟨listen, peer, returned, rfl⟩
    | join => exact ⟨listen, peer, returned, rfl⟩

/-- A new session, with a worker or without one -/
theorem create_tidy {t : Threads} (peer : t.peer = none)
    (state : t.state = .hosting ∨ t.state = .connecting)
    (opened : ∀ c ∈ t.opened, t.listen = some c) (created : Bool) : (t.create created).Tidy := by
  have fresh_ : t.state ≠ .idle ∧ t.state ≠ .connected := by
    rcases state with same | same <;> simp [same]
  have phase : (t.create created).Phase .idle := by
    refine ⟨fun some_ => absurd peer some_, fun up => ?_⟩
    rcases up with connected | announce
    · exact absurd connected fresh_.2
    · cases created <;> exact absurd announce (by simp [create])
  refine ⟨fun some_ => ?_, fun _ _ _ => peer, fun idle => absurd idle fresh_.1,
    fun c member => .inl (opened c member), phase⟩
  cases created with
  | true => rfl
  | false => exact absurd rfl some_

theorem Tidy.hostStep (tidy : t.Tidy) (here : t.main = .host) {sock : Option Fd}
    (new : fresh sock t = true) (bound created : Bool) : (t.hostStep sock bound created).Tidy := by
  have phase := tidy.phase
  rw [here] at phase
  rcases phase with ⟨listen, peer, returned, state⟩
  have nothing := tidy.nothing listen peer returned
  have ended : Tidy { t with isHost := true, cancel := false, main := .idle } := by
    refine ⟨tidy.thread, tidy.early, tidy.idle, fun c member => ?_, ?_⟩
    · rw [nothing] at member
      exact absurd member (Finset.notMem_empty c)
    · simp [Phase, peer, returned, state]
  cases sock with
  | none => exact ended
  | some l =>
    have only (c : Fd) (member : c ∈ insert l t.opened) : some l = some c := by
      rw [nothing] at member
      exact congrArg some (Finset.mem_singleton.mp member).symm
    cases bound with
    | true =>
      exact create_tidy (t := { t.opens l with
        isHost := true, cancel := false, listen := some l, state := .hosting })
        peer (.inl rfl) only created
    | false =>
      have erased : (insert l t.opened).erase l = t.opened := by
        rw [nothing]
        simp
      have closed : t.hostStep (some l) false created =
          { t with isHost := true, cancel := false, main := .idle, listen := none } := by
        simp only [Threads.hostStep, close, opens, Finset.mem_insert_self, if_true, erased]
        rfl
      rw [closed, ← listen]
      exact ended

theorem Tidy.mainStep (tidy : t.Tidy) (sane : t.Sane) {sock : Option Fd}
    (new : fresh sock t = true) (bound created : Bool)
    (timely : (∃ k, t.main = .checkPeer k) → ∀ c, t.worker ≠ some (.publish c)) :
    (t.mainStep sock bound created).Tidy := by
  have phase := tidy.phase
  unfold Threads.mainStep
  split
  case h_1 => exact tidy
  case h_2 here =>
    rw [here] at phase
    exact tidy.moved t.cancel (by simp) (by simp)
      ⟨phase.1, fun _ => ⟨phase.2, rfl⟩, fun other => absurd rfl other⟩
  case h_3 here =>
    rw [here] at phase
    exact tidy.moved true id (by simp) ⟨phase, rfl⟩
  case h_4 k here =>
    rw [here] at phase
    cases has : t.listen with
    | none =>
      have moved : Tidy { t with state := t.state, cancel := t.cancel, main := .checkPeer k } :=
        tidy.moved t.cancel id (by simp) ⟨phase.1, phase.2, has⟩
      rw [has] at moved
      exact moved
    | some l => exact tidy.closeListen sane here has
  case h_5 k here =>
    rw [here] at phase
    by_cases none_ : t.peer = none
    · rw [if_pos none_]
      exact tidy.moved t.cancel id (by simp)
        ⟨phase.1, phase.2.1, phase.2.2, none_, timely ⟨k, here⟩⟩
    · rw [if_neg none_]
      exact tidy.moved t.cancel id (by simp)
        ⟨none_, fun relay => absurd relay phase.1, fun _ => phase.2⟩
  case h_6 k here =>
    rcases Option.ne_none_iff_exists'.mp (sane.closing (.inr ⟨k, here⟩)) with ⟨p, has⟩
    rw [has]
    exact tidy.closePeer sane here has
  case h_7 here => exact tidy.clearPeer here
  case h_8 k here =>
    rw [here] at phase
    rcases phase with ⟨other, -, listen, peer, -⟩
    by_cases runs : t.thread = true ∧ t.worker ≠ none
    · rw [if_pos runs]
      exact tidy
    · rw [if_neg runs]
      have returned : t.worker = none := by
        by_contra some_
        exact runs ⟨tidy.thread some_, some_⟩
      refine ⟨fun some_ => absurd returned some_, tidy.early, tidy.idle, fun c member => ?_,
        ⟨other, listen, peer, returned⟩⟩
      rw [tidy.nothing listen peer returned] at member
      exact absurd member (Finset.notMem_empty c)
  case h_9 here => exact tidy.rest here
  case h_10 here => exact tidy.hostStep here new bound created
  case h_11 here =>
    rw [here] at phase
    rcases phase with ⟨listen, peer, returned, -⟩
    refine create_tidy (t := { t with isHost := false, cancel := false, state := .connecting })
      peer (.inr rfl) (fun c member => ?_) created
    have none_ : c ∈ t.opened := member
    rw [tidy.nothing listen peer returned] at none_
    exact absurd none_ (Finset.notMem_empty c)

theorem Tidy.step (tidy : t.Tidy) (sane : t.Sane) {op : ThreadsOp} (timely : Timely op t) :
    (t.step op).Tidy := by
  have phase := tidy.phase
  cases op with
  | call k =>
    rw [Threads.step]
    split
    · rename_i calls
      exact tidy.moved t.cancel id (by simp) calls.2
    · exact tidy
  | relayFails =>
    rw [Threads.step]
    split
    · rename_i fails
      rcases fails with ⟨here, peer⟩
      have returned : t.worker = none := by
        cases at_ : t.worker with
        | none => rfl
        | some w =>
          have other : w ≠ .announce := fun same => timely (at_.trans (congrArg some same))
          exact absurd (tidy.early w at_ other) peer
      exact tidy.moved t.cancel id (by simp) ⟨peer, returned⟩
    · exact tidy
  | main sock bound created =>
    rw [Threads.step]
    split
    · rename_i new
      exact tidy.mainStep sane new bound created timely
    · exact tidy
  | worker sock ok =>
    rw [Threads.step]
    split
    · rename_i new
      exact tidy.worker sane (workerStep_effect new ok)
    · exact tidy

end Tidy

section Runs

/-- Between two calls of the game, exactly the sockets in the variables and with the worker are
open; a session that has ended has none and no worker; and what `mp_get_state` says of the
connection is true, up to a worker that is just about to say it. -/
structure Accounted (t : Threads) : Prop where
  opened : ∀ c, c ∈ t.opened ↔ t.listen = some c ∨ t.peer = some c ∨ t.ownFd = some c
  ended : t.state = .idle → t.opened = ∅ ∧ t.worker = none
  connected : t.peer ≠ none ↔ t.state = .connected ∨ t.worker = some .announce

theorem Tidy.accounts {t : Threads} (tidy : t.Tidy) (sane : t.Sane) (here : t.main = .idle) :
    t.Accounted := by
  have clear : ¬t.Clearing := not_clearing here (by simp)
  have phase := tidy.phase
  rw [here] at phase
  refine ⟨fun c => ⟨fun member => ?_, fun held => ?_⟩, fun idle => ?_, phase⟩
  · exact (tidy.accounted c member).imp id (Or.imp And.left id)
  · rcases held with listen | peer | own
    · exact sane.listen c listen
    · exact (sane.peer c peer clear).1
    · exact (sane.own c own).1
  · rcases tidy.idle idle with ⟨listen, peer, returned⟩
    exact ⟨tidy.nothing listen peer returned, returned⟩

/-- In whatever order the statements of both threads come, no socket is closed twice or after the
system has given its number away. As long as `mp_disconnect` does not look at `s_peer` just
before the worker sets it, and the connection does not fail before the worker has announced it,
no socket is ever lost either, and the session is in the state that it says it is in. -/
theorem threads_accounted (ops : List ThreadsOp) :
    machine.Always (fun t => t.stray = false) ops start ∧
      (machine.Permitted Timely ops start →
        machine.Always (fun t => t.main = .idle → t.Accounted) ops start) := by
  have sane : machine.Always Sane ops start :=
    CommandMachine.always_of_step (fun op _ sane => sane.step op) ops start_sane
  refine ⟨sane.mono fun _ sane => sane.noStray, fun timely => ?_⟩
  have tidy : machine.Always (fun t => t.Sane ∧ t.Tidy) ops start :=
    CommandMachine.always_of_permitted
      (fun op _ timely both => ⟨both.1.step op, both.2.step both.1 timely⟩) timely
      ⟨start_sane, start_tidy⟩
  exact tidy.mono fun _ both here => both.2.accounts both.1 here

end Runs

section Race

/-- A statement of one of the threads -/
def Statement : ThreadsOp → Prop
  | .main _ _ _ => True
  | .worker _ _ => True
  | _ => False

/-- `mp_disconnect` has found no peer, and the worker sets it all the same. -/
structure Missed (c : Fd) (t : Threads) : Prop where
  thread : t.worker ≠ none → t.thread = true
  place :
    t.main = .wait .disconnect ∧ (t.worker = some (.publish c) ∨
      t.peer = some c ∧ (t.worker = some .announce ∨ t.worker = none)) ∨
    t.main = .rest .disconnect ∧ t.peer = some c ∧ t.worker = none ∨
    t.main = .idle ∧ t.state = .idle ∧ t.peer = some c ∧ t.worker = none

variable {t : Threads} {c : Fd}

theorem Missed.mainStep (missed : Missed c t) (sock : Option Fd) (bound created : Bool) :
    Missed c (t.mainStep sock bound created) := by
  rcases missed with ⟨thread, ⟨here, place⟩ | ⟨here, peer, returned⟩ | ⟨here, ended⟩⟩
  · simp only [Threads.mainStep, here]
    by_cases runs : t.thread = true ∧ t.worker ≠ none
    · rw [if_pos runs]
      exact ⟨thread, .inl ⟨here, place⟩⟩
    · rw [if_neg runs]
      have returned : t.worker = none := by
        by_contra some_
        exact runs ⟨thread some_, some_⟩
      rcases place with publishes | ⟨peer, -⟩
      · exact absurd (returned.symm.trans publishes) (by simp)
      · exact ⟨fun some_ => absurd returned some_, .inr (.inl ⟨rfl, peer, returned⟩)⟩
  · simp only [Threads.mainStep, here]
    exact ⟨fun some_ => absurd returned some_, .inr (.inr ⟨rfl, rfl, peer, returned⟩)⟩
  · simp only [Threads.mainStep, here]
    exact ⟨thread, .inr (.inr ⟨here, ended⟩)⟩

theorem Missed.workerStep (missed : Missed c t) (sock : Option Fd) (ok : Bool) :
    Missed c (t.workerStep sock ok) := by
  have still (returned : t.worker = none) : t.workerStep sock ok = t := by
    simp only [Threads.workerStep, returned]
  have all := missed
  rcases missed with
    ⟨thread, ⟨here, publishes | ⟨peer, announces | returned⟩⟩ | ⟨-, -, returned⟩ |
      ⟨-, -, -, returned⟩⟩
  · simp only [Threads.workerStep, publishes]
    exact ⟨fun _ => thread (by simp [publishes]), .inl ⟨here, .inr ⟨rfl, .inl rfl⟩⟩⟩
  · simp only [Threads.workerStep, announces]
    exact ⟨fun some_ => absurd rfl some_, .inl ⟨here, .inr ⟨peer, .inr rfl⟩⟩⟩
  · rw [still returned]
    exact all
  · rw [still returned]
    exact all
  · rw [still returned]
    exact all

theorem Missed.step (missed : Missed c t) {op : ThreadsOp} (statement : Statement op) :
    Missed c (t.step op) := by
  cases op with
  | call => exact statement.elim
  | relayFails => exact statement.elim
  | main sock bound created =>
    rw [Threads.step]
    split
    · exact missed.mainStep sock bound created
    · exact missed
  | worker sock ok =>
    rw [Threads.step]
    split
    · exact missed.workerStep sock ok
    · exact missed

/-- Where, after a timely run, the game's own `mp_disconnect` does look at `s_peer` just before the
worker sets it, the session is idle when it returns, and the connection is still open: no order
of the statements that are left can close it. -/
theorem disconnect_misses_peer {ops later : List ThreadsOp} {c : Fd}
    (timely : machine.Permitted Timely ops start)
    (check : (machine.run ops start).2.main = .checkPeer .disconnect)
    (publishes : (machine.run ops start).2.worker = some (.publish c))
    (statements : ∀ op ∈ later, Statement op) :
    let checked := (machine.run ops start).2.step (.main none false false)
    let t := (machine.run later checked).2
    t.main = .idle → t.state = .idle ∧ t.peer = some c ∧ c ∈ t.opened := by
  have before : (machine.run ops start).2.Sane ∧ (machine.run ops start).2.Tidy :=
    (CommandMachine.always_of_permitted (P := fun t => t.Sane ∧ t.Tidy)
      (fun op _ timely both => ⟨both.1.step op, both.2.step both.1 timely⟩) timely
      ⟨start_sane, start_tidy⟩).last
  generalize (machine.run ops start).2 = t at check publishes before
  have peer := before.2.early _ publishes (by simp)
  have checked : t.step (.main none false false) = { t with main := .wait .disconnect } := by
    simp [step, fresh, mainStep, check, peer]
  have missed : Missed c { t with main := .wait .disconnect } :=
    ⟨before.2.thread, .inl ⟨rfl, .inl publishes⟩⟩
  have permitted (s : Threads) : machine.Permitted (fun op _ => Statement op) later s := by
    induction later generalizing s with
    | nil => trivial
    | cons op later ih =>
      exact ⟨statements op List.mem_cons_self,
        ih (fun op member => statements op (List.mem_cons_of_mem _ member)) _⟩
  rintro first last here
  have sane : first.Sane := before.1.step _
  have both : last.Sane ∧ Missed c last :=
    (CommandMachine.always_of_permitted (P := fun t => t.Sane ∧ Missed c t)
      (fun op _ statement both => ⟨both.1.step op, both.2.step statement⟩) (permitted first)
      ⟨sane, by rw [show first = _ from checked]; exact missed⟩).last
  rcases both with ⟨sane, -, ⟨other, -⟩ | ⟨other, -⟩ | ⟨-, ended, peer, -⟩⟩
  · exact absurd (here.symm.trans other) (by simp)
  · exact absurd (here.symm.trans other) (by simp)
  · exact ⟨ended, peer, (sane.peer c peer (not_clearing here (by simp))).1⟩

/-- A peer connects in the moment in which the game gives up hosting. -/
def givesUp : List ThreadsOp :=
  [.call .host, .main none false false, .main none false false, .main none false false,
    .main none false false, .main none false false, .main (some 3) true true, .worker none false,
    .worker (some 4) false, .worker none false, .call .disconnect, .main none false false,
    .main none false false]

theorem givesUp_timely : machine.Permitted Timely givesUp start := by
  simp [givesUp, CommandMachine.Permitted, machine, Timely, step, start, fresh, mainStep,
    workerStep, hostStep, opens, create]

theorem disconnect_misses_peer_accepted :
    let later : List ThreadsOp := [.worker none false, .worker none false, .main none false false,
      .main none false false]
    let t := (machine.run later ((machine.run givesUp start).2.step (.main none false false))).2
    t.state = .idle ∧ t.peer = some 4 ∧ 4 ∈ t.opened :=
  disconnect_misses_peer givesUp_timely rfl rfl (by simp [Statement]) rfl

end Race

end Threads

end LynxRecomp
