import AgentRuntimeKit.Protocol.Shutdown

/-!
# The task sets of a runtime

`_active_invocations` holds the tasks that are inside an invocation, and `_cleanup_tasks` every
clean-up that is not done. So the runtime knows where each task stands, and a task that finds
nothing pending finds nobody inside.

## Results

* `LoopInv` — the invariant of the two sets.
* `lifetime_tracks` — the runtime knows the place of each task.
* `LoopCfg.Reaches.sound` — the invariant and the place of every task, in every run.
-/

namespace AgentRuntimeKit

open Lib Prog Typestate

namespace Loop

/-- Where `p` stands. -/
def standing (w : Loop) (p : Pid) : Standing :=
  if w.finished p then .over
  else match w.kind p with
    | .idle => .unborn
    | .cleanup => .settling
    | .host => if p ∈ w.active then .inside else .outside

def place (p : Pid) (w : Loop) : Place := ⟨w.standing p, w.door p⟩

end Loop

/-- Nobody is inside, and every clean-up is done. -/
structure Settled (w : Loop) : Prop where
  closing : w.closing = true
  active : w.active = ∅
  cleanups : ∀ p, w.kind p = .cleanup → w.finished p = true

structure LoopInv (w : Loop) : Prop where
  /-- Whoever is registered is a task of the host that is not done. -/
  live : ∀ p ∈ w.active, w.kind p = .host ∧ w.finished p = false
  fresh : ∀ p, w.kind p = .idle → w.finished p = false ∧ w.door p = .untouched
  /-- A clean-up stays in the set until it is done. -/
  settlers : ∀ p, w.kind p = .cleanup → w.finished p = false → p ∈ w.cleanups
  closers : ∀ p, w.door p ≠ .untouched → w.closing = true
  drained : ∀ p, w.door p = .drained → Settled w
  released : w.disposed = true → Settled w

section Places

variable {w w' : Loop} {p q : Pid}

theorem Loop.standing_congr (hfinished : w'.finished p = w.finished p)
    (hkind : w'.kind p = w.kind p) (hactive : p ∈ w'.active ↔ p ∈ w.active) :
    w'.standing p = w.standing p := by
  unfold Loop.standing
  rw [hfinished, hkind]
  simp only [hactive]

/-- A shutdown moves nobody. -/
theorem Loop.place_door (w : Loop) (closing : Bool) (door : Pid → Door) :
    Loop.place p { w with closing := closing, door := door } = ⟨w.standing p, door p⟩ := rfl

theorem Loop.place_congr (hfinished : w'.finished p = w.finished p) (hkind : w'.kind p = w.kind p)
    (hactive : p ∈ w'.active ↔ p ∈ w.active) (hdoor : w'.door p = w.door p) :
    w'.place p = w.place p := by
  unfold Loop.place
  rw [Loop.standing_congr hfinished hkind hactive, hdoor]

theorem Loop.standing_outside (h : w.standing p = .outside) :
    w.finished p = false ∧ w.kind p = .host ∧ p ∉ w.active := by
  unfold Loop.standing at h
  split at h
  · exact absurd h (by simp)
  · next hfinished =>
    split at h
    · exact absurd h (by simp)
    · exact absurd h (by simp)
    · next hkind =>
      split at h
      · exact absurd h (by simp)
      · next hactive => exact ⟨by simpa using hfinished, hkind, hactive⟩

theorem Loop.standing_inside (h : w.standing p = .inside) :
    w.finished p = false ∧ w.kind p = .host ∧ p ∈ w.active := by
  unfold Loop.standing at h
  split at h
  · exact absurd h (by simp)
  · next hfinished =>
    split at h
    · exact absurd h (by simp)
    · exact absurd h (by simp)
    · next hkind =>
      split at h
      · next hactive => exact ⟨by simpa using hfinished, hkind, hactive⟩
      · exact absurd h (by simp)

theorem Loop.standing_settling (h : w.standing p = .settling) :
    w.finished p = false ∧ w.kind p = .cleanup := by
  unfold Loop.standing at h
  split at h
  · exact absurd h (by simp)
  · next hfinished =>
    split at h
    · exact absurd h (by simp)
    · next hkind => exact ⟨by simpa using hfinished, hkind⟩
    · split at h
      · exact absurd h (by simp)
      · exact absurd h (by simp)

theorem Loop.host_unfinished (h : (w.place p).Hosts) :
    w.finished p = false ∧ w.kind p = .host := by
  rcases h with hout | hin
  · exact ⟨(Loop.standing_outside hout).1, (Loop.standing_outside hout).2.1⟩
  · exact ⟨(Loop.standing_inside hin).1, (Loop.standing_inside hin).2.1⟩

/-- Whoever is inside is seen by `shutdown`. -/
theorem unsettled_of_active (hp : p ∈ w.active) : ¬ Settled w := by
  intro hsettled
  rw [hsettled.active] at hp
  exact absurd hp (Finset.notMem_empty p)

/-- Nothing is pending only where nobody is inside and every clean-up is done. -/
theorem LoopInv.settled (h : LoopInv w) (hclosing : w.closing = true)
    (hnone : w.unfinished = ∅) : Settled w := by
  have hdone : ∀ q, q ∈ w.active ∪ w.cleanups → w.finished q ≠ false := by
    intro q hq hfinished
    have hmem : q ∈ w.unfinished := Finset.mem_filter.mpr ⟨hq, hfinished⟩
    rw [hnone] at hmem
    exact absurd hmem (Finset.notMem_empty q)
  refine ⟨hclosing, Finset.eq_empty_of_forall_notMem fun q hq => ?_, fun q hq => ?_⟩
  · exact hdone q (Finset.mem_union_left _ hq) (h.live q hq).2
  · by_contra hfinished
    have hopen : w.finished q = false := by simpa using hfinished
    exact hdone q (Finset.mem_union_right _ (h.settlers q hq hopen)) hopen

end Places

-- ---------------------------------------------------------------------------
-- One operation
-- ---------------------------------------------------------------------------

/-- What an operation of `p` does to where tasks stand. -/
structure Advances (p : Pid) (w : Loop) (o : LoopOp) (r : Except Exn (LoopRes o)) (w' : Loop)
    (fs : LoopForks) : Prop where
  inv : LoopInv w'
  answers : (w.place p).answers o r
  place : w'.place p = (w.place p).after o r
  others : ∀ q, q ≠ p → q ∉ fs.map Prod.fst → w'.place q = w.place q
  forks : ∀ f ∈ fs, lifetime.Follows IsOver (w'.place f.1) f.2

section Operations

variable {w : Loop} {p q : Pid}

theorem no_forks {P : Pid × L Unit → Prop} : ∀ f ∈ ([] : LoopForks), P f :=
  fun _ hf => absurd hf List.not_mem_nil

/-- The world stays as it is. -/
theorem Advances.same {o : LoopOp} {r : Except Exn (LoopRes o)} (hi : LoopInv w)
    (hanswers : (w.place p).answers o r) (hstay : (w.place p).after o r = w.place p) :
    Advances p w o r w [] :=
  ⟨hi, hanswers, hstay.symm, fun _ _ _ => rfl, no_forks⟩

theorem register_advances (hi : LoopInv w) (hp : (w.place p).Hosts) (hopen : w.closing = false) :
    Advances p w .register (.ok (decide (p ∉ w.active)))
      { w with active := insert p w.active } [] := by
  have hlive := Loop.host_unfinished hp
  have hunsettled : ¬ Settled w := by
    intro h
    rw [h.closing] at hopen
    exact absurd hopen (by simp)
  refine ⟨⟨?_, hi.fresh, hi.settlers, hi.closers, ?_, ?_⟩, ?_, ?_, ?_, no_forks⟩
  · intro q hq
    rcases Finset.mem_insert.mp hq with rfl | hq
    · exact ⟨hlive.2, hlive.1⟩
    · exact hi.live q hq
  · exact fun q hq => absurd (hi.drained q hq) hunsettled
  · exact fun h => absurd (hi.released h) hunsettled
  · show decide (p ∉ w.active) = decide ((w.place p).standing = .outside)
    rcases hp with hout | hin
    · rw [hout]
      simpa using (Loop.standing_outside hout).2.2
    · rw [hin]
      simpa using (Loop.standing_inside hin).2.2
  · unfold Loop.place Loop.standing
    simp [Place.after, hlive.1, hlive.2]
  · intro q hq _
    refine Loop.place_congr rfl rfl ?_ rfl
    simp [hq]

theorem unregister_advances (hi : LoopInv w) (hp : (w.place p).standing = .inside) :
    Advances p w .unregister (.ok ()) { w with active := w.active.erase p } [] := by
  obtain ⟨hopen, hkind, hactive⟩ := Loop.standing_inside hp
  refine ⟨⟨?_, hi.fresh, hi.settlers, hi.closers, ?_, ?_⟩, trivial, ?_, ?_, no_forks⟩
  · exact fun q hq => hi.live q (Finset.mem_of_mem_erase hq)
  · exact fun q hq => absurd (hi.drained q hq) (unsettled_of_active hactive)
  · exact fun h => absurd (hi.released h) (unsettled_of_active hactive)
  · unfold Loop.place Loop.standing
    simp [Place.after, hopen, hkind]
  · intro q hq _
    refine Loop.place_congr rfl rfl ?_ rfl
    simp [hq]

theorem spawn_advances {runId token : Uuid} {code : String} {status : RunStatus} (hi : LoopInv w)
    (hp : (w.place p).standing = .inside) (hq : w.kind q = .idle) :
    Advances p w (.spawn runId token code status) (.ok q)
      { w with kind := Function.update w.kind q .cleanup, cleanups := insert q w.cleanups }
      [(q, settleTask runId token code status)] := by
  obtain ⟨hopen, hkind, hactive⟩ := Loop.standing_inside hp
  have hne : p ≠ q := by
    intro h
    rw [h, hq] at hkind
    exact LoopKind.noConfusion hkind
  have hsame : ∀ q', q' ≠ q → Function.update w.kind q .cleanup q' = w.kind q' :=
    fun q' hq' => Function.update_of_ne hq' _ _
  have hidle := hi.fresh q hq
  refine ⟨⟨?_, ?_, ?_, hi.closers, ?_, ?_⟩, trivial, ?_, ?_, ?_⟩
  · intro q' hq'
    have hlive := hi.live q' hq'
    refine ⟨(hsame q' fun h => ?_).trans hlive.1, hlive.2⟩
    rw [h, hq] at hlive
    exact LoopKind.noConfusion hlive.1
  · intro q' hq'
    by_cases h : q' = q
    · rw [h]
      exact hidle
    · exact hi.fresh q' ((hsame q' h).symm.trans hq')
  · intro q' hq' hfinished
    by_cases h : q' = q
    · exact Finset.mem_insert.mpr (Or.inl h)
    · exact Finset.mem_insert_of_mem (hi.settlers q' ((hsame q' h).symm.trans hq') hfinished)
  · exact fun q' hq' => absurd (hi.drained q' hq') (unsettled_of_active hactive)
  · exact fun h => absurd (hi.released h) (unsettled_of_active hactive)
  · exact Loop.place_congr rfl (hsame p hne) Iff.rfl rfl
  · intro q' _ hq'
    refine Loop.place_congr rfl (hsame q' fun h => hq' ?_) Iff.rfl rfl
    rw [h]
    exact List.mem_singleton.mpr rfl
  · intro f hf
    rw [List.mem_singleton.mp hf]
    refine settleTask_follows ?_
    unfold Loop.place Loop.standing
    simp [hidle.1]

theorem close_advances (hi : LoopInv w) (hp : (w.place p).Hosts) (hactive : p ∉ w.active) :
    Advances p w .close (.ok ()) { w with
      closing := true
      door := Function.update w.door p (if w.door p = .drained then .drained else .closed) }
      [] := by
  have hlive := Loop.host_unfinished hp
  refine ⟨⟨hi.live, ?_, hi.settlers, fun _ _ => rfl, ?_, ?_⟩, trivial, ?_, ?_, no_forks⟩
  · intro q hq
    have hne : q ≠ p := by
      intro h
      rw [h, hlive.2] at hq
      exact LoopKind.noConfusion hq
    exact ⟨(hi.fresh q hq).1, (Function.update_of_ne hne _ _).trans (hi.fresh q hq).2⟩
  · intro q hq
    have hdrained : w.door q = .drained := by
      by_cases h : q = p
      · subst h
        dsimp only at hq
        rw [Function.update_self] at hq
        split at hq
        · assumption
        · exact absurd hq (by simp)
      · exact (Function.update_of_ne h _ _).symm.trans hq
    have hsettled := hi.drained q hdrained
    exact ⟨rfl, hsettled.active, hsettled.cleanups⟩
  · intro h
    have hsettled := hi.released h
    exact ⟨rfl, hsettled.active, hsettled.cleanups⟩
  · refine (Loop.place_door w _ _).trans ?_
    rw [Function.update_self]
    rfl
  · exact fun q hq _ => Loop.place_congr rfl rfl Iff.rfl (Function.update_of_ne hq _ _)

theorem pending_advances (hi : LoopInv w) (hp : (w.place p).Hosts) (hdoor : w.door p ≠ .untouched) :
    Advances p w .pending (.ok w.unfinished) { w with
      door := if w.unfinished = ∅ then Function.update w.door p .drained else w.door } [] := by
  have hlive := Loop.host_unfinished hp
  by_cases hnone : w.unfinished = ∅
  · have hsettled := hi.settled (hi.closers p hdoor) hnone
    rw [if_pos hnone]
    refine ⟨⟨hi.live, ?_, hi.settlers, fun _ _ => hsettled.closing, fun _ _ => ?_, fun _ => ?_⟩,
      trivial, ?_, ?_, no_forks⟩
    · intro q hq
      have hne : q ≠ p := by
        intro h
        rw [h, hlive.2] at hq
        exact LoopKind.noConfusion hq
      exact ⟨(hi.fresh q hq).1, (Function.update_of_ne hne _ _).trans (hi.fresh q hq).2⟩
    · exact ⟨hsettled.closing, hsettled.active, hsettled.cleanups⟩
    · exact ⟨hsettled.closing, hsettled.active, hsettled.cleanups⟩
    · refine (Loop.place_door w _ _).trans ?_
      simp [Place.after, Loop.place, hnone]
    · exact fun q hq _ => Loop.place_congr rfl rfl Iff.rfl (Function.update_of_ne hq _ _)
  · rw [if_neg hnone]
    refine Advances.same hi trivial ?_
    simp [Place.after, hnone]

theorem finish_advances (hi : LoopInv w)
    (hp : (w.place p).standing = .outside ∨ (w.place p).standing = .settling) :
    Advances p w .finish (.ok ()) { w with finished := Function.update w.finished p true } [] := by
  have hsame : ∀ q, q ≠ p → Function.update w.finished p true q = w.finished q :=
    fun q hq => Function.update_of_ne hq _ _
  have hmono : ∀ q, w.finished q = true → Function.update w.finished p true q = true := by
    intro q hq
    by_cases h : q = p
    · rw [h]
      exact Function.update_self _ _ _
    · exact (hsame q h).trans hq
  have hquiet : Settled w → Settled { w with finished := Function.update w.finished p true } :=
    fun h => ⟨h.closing, h.active, fun q hq => hmono q (h.cleanups q hq)⟩
  have hborn : w.kind p ≠ .idle ∧ p ∉ w.active := by
    rcases hp with hout | hsettling
    · obtain ⟨-, hkind, hactive⟩ := Loop.standing_outside hout
      exact ⟨by simp [hkind], hactive⟩
    · obtain ⟨-, hkind⟩ := Loop.standing_settling hsettling
      refine ⟨by simp [hkind], fun hactive => ?_⟩
      rw [(hi.live p hactive).1] at hkind
      exact LoopKind.noConfusion hkind
  refine ⟨⟨?_, ?_, ?_, hi.closers, ?_, ?_⟩, trivial, ?_, ?_, no_forks⟩
  · intro q hq
    have hne : q ≠ p := fun h => hborn.2 (h ▸ hq)
    exact ⟨(hi.live q hq).1, (hsame q hne).trans (hi.live q hq).2⟩
  · intro q hq
    have hne : q ≠ p := fun h => hborn.1 (h ▸ hq)
    exact ⟨(hsame q hne).trans (hi.fresh q hq).1, (hi.fresh q hq).2⟩
  · intro q hq hfinished
    refine hi.settlers q hq ?_
    by_contra h
    have hdone := hmono q (by simpa using h)
    exact Bool.false_ne_true (hfinished.symm.trans hdone)
  · exact fun q hq => hquiet (hi.drained q hq)
  · exact fun h => hquiet (hi.released h)
  · unfold Loop.place Loop.standing
    simp [Place.after]
  · exact fun q hq _ => Loop.place_congr (hsame q hq) rfl Iff.rfl rfl

theorem dispose_advances (hi : LoopInv w) (hdoor : w.door p = .drained) :
    Advances p w .dispose (.ok ()) { w with disposed := true } [] := by
  have hsettled := hi.drained p hdoor
  have hquiet : Settled { w with disposed := true } :=
    ⟨hsettled.closing, hsettled.active, hsettled.cleanups⟩
  exact ⟨⟨hi.live, hi.fresh, hi.settlers, hi.closers, fun _ _ => hquiet, fun _ => hquiet⟩, trivial,
    rfl, fun _ _ _ => rfl, no_forks⟩

/-- `_lifespan_active` matters to nobody's place. -/
theorem lifespan_advances {o : LoopOp} {r : Except Exn (LoopRes o)} (hi : LoopInv w) (b : Bool)
    (hanswers : (w.place p).answers o r) (hstay : (w.place p).after o r = w.place p) :
    Advances p w o r { w with lifespan := b } [] := by
  have hquiet : Settled w → Settled { w with lifespan := b } :=
    fun h => ⟨h.closing, h.active, h.cleanups⟩
  exact ⟨⟨hi.live, hi.fresh, hi.settlers, hi.closers, fun q hq => hquiet (hi.drained q hq),
    fun h => hquiet (hi.released h)⟩, hanswers, hstay.symm, fun _ _ _ => rfl, no_forks⟩

-- ---------------------------------------------------------------------------
-- Every operation
-- ---------------------------------------------------------------------------

/-- An operation that is decided by `reply`. -/
theorem reply_eq {o : LoopOp} {r r' : Except Exn (LoopRes o)} {w' w'' : Loop} {fs : LoopForks}
    (h : reply r' w'' = some (r, w', fs)) : r = r' ∧ w' = w'' ∧ fs = [] := by
  unfold reply at h
  obtain ⟨hr, hw, hfs⟩ : r' = r ∧ w'' = w' ∧ [] = fs := by simpa using h
  exact ⟨hr.symm, hw.symm, hfs.symm⟩

theorem inner_same {o : Op} {ch : LoopChoice} {r : Except Exn (Res o)} {w' : Loop} {fs : LoopForks}
    (hx : Loop.exec p w (.inner o) ch = some (r, w', fs)) : w' = w ∧ fs = [] := by
  cases o with
  | awaitCleanup cleanup =>
    simp only [Loop.exec] at hx
    split at hx
    · split at hx
      · exact (reply_eq hx).2
      · exact absurd hx (by simp)
    · exact (reply_eq hx).2
  | _ => exact (reply_eq hx).2

/-- What the runtime does for a task that keeps to its place. -/
theorem Loop.exec_advances {o : LoopOp} {ch : LoopChoice} {r : Except Exn (LoopRes o)} {w' : Loop}
    {fs : LoopForks} (hi : LoopInv w) (hx : w.exec p o ch = some (r, w', fs))
    (ho : (w.place p).allows o) : Advances p w o r w' fs := by
  cases o with
  | register =>
    simp only [Loop.exec] at hx
    split at hx
    · obtain ⟨rfl, rfl, rfl⟩ := reply_eq hx
      exact Advances.same hi trivial rfl
    · next hopen =>
      obtain ⟨rfl, rfl, rfl⟩ := reply_eq hx
      exact register_advances hi ho (by simpa using hopen)
  | unregister =>
    obtain ⟨rfl, rfl, rfl⟩ := reply_eq hx
    exact unregister_advances hi ho
  | inner o =>
    obtain ⟨rfl, rfl⟩ := inner_same hx
    exact Advances.same hi (by cases r <;> trivial) (by cases r <;> rfl)
  | spawn runId token code status =>
    simp only [Loop.exec] at hx
    split at hx
    · split at hx
      · next hidle =>
        obtain ⟨rfl, rfl, rfl⟩ : _ ∧ _ ∧ _ := by
          simpa only [Option.some.injEq, Prod.mk.injEq] using hx
        exact spawn_advances hi ho hidle
      · exact absurd hx (by simp)
    · exact absurd hx (by simp)
  | host =>
    obtain ⟨-, rfl, rfl⟩ := reply_eq hx
    exact Advances.same hi (by cases r <;> trivial) (by cases r <;> rfl)
  | close =>
    simp only [Loop.exec] at hx
    split at hx
    · obtain ⟨rfl, rfl, rfl⟩ := reply_eq hx
      exact Advances.same hi trivial rfl
    · next hactive =>
      obtain ⟨rfl, rfl, rfl⟩ := reply_eq hx
      exact close_advances hi ho hactive
  | time =>
    obtain ⟨rfl, rfl, rfl⟩ := reply_eq hx
    exact Advances.same hi trivial rfl
  | pending =>
    obtain ⟨rfl, rfl, rfl⟩ := reply_eq hx
    exact pending_advances hi ho.1 ho.2
  | wait tasks deadline =>
    simp only [Loop.exec] at hx
    split at hx
    · split at hx
      · obtain ⟨rfl, rfl, rfl⟩ := reply_eq hx
        exact Advances.same hi trivial rfl
      · exact absurd hx (by simp)
    · obtain ⟨rfl, rfl, rfl⟩ := reply_eq hx
      exact Advances.same hi trivial rfl
  | unrolled => exact absurd hx (by simp [Loop.exec])
  | enterLifespan =>
    simp only [Loop.exec] at hx
    split at hx
    · obtain ⟨rfl, rfl, rfl⟩ := reply_eq hx
      exact Advances.same hi trivial rfl
    · split at hx
      · obtain ⟨rfl, rfl, rfl⟩ := reply_eq hx
        exact Advances.same hi trivial rfl
      · obtain ⟨rfl, rfl, rfl⟩ := reply_eq hx
        exact lifespan_advances hi true trivial rfl
  | leaveLifespan =>
    obtain ⟨rfl, rfl, rfl⟩ := reply_eq hx
    exact lifespan_advances hi false trivial rfl
  | dispose =>
    obtain ⟨rfl, rfl, rfl⟩ := reply_eq hx
    exact dispose_advances hi ho.2
  | finish =>
    obtain ⟨rfl, rfl, rfl⟩ := reply_eq hx
    exact finish_advances hi ho

end Operations

-- ---------------------------------------------------------------------------
-- The environment
-- ---------------------------------------------------------------------------

section Runs

variable {w w' : Loop} {fs : LoopForks}

theorem start_advances {p : Pid} {t : HostTask} (hi : LoopInv w) (hp : w.kind p = .idle) :
    LoopInv { w with kind := Function.update w.kind p .host } ∧
      (∀ q, q ∉ [(p, asTask t.code)].map Prod.fst →
        Loop.place q { w with kind := Function.update w.kind p .host } = w.place q) ∧
      ∀ f ∈ [(p, asTask t.code)], lifetime.Follows IsOver
        (Loop.place f.1 { w with kind := Function.update w.kind p .host }) f.2 := by
  have hsame : ∀ q, q ≠ p → Function.update w.kind p .host q = w.kind q :=
    fun q hq => Function.update_of_ne hq _ _
  have hidle := hi.fresh p hp
  have hfree : p ∉ w.active := by
    intro hactive
    have hlive := (hi.live p hactive).1
    rw [hp] at hlive
    exact LoopKind.noConfusion hlive
  -- the new task is neither idle nor a clean-up
  have hhost : ∀ q κ, Function.update w.kind p .host q = κ → κ ≠ .host → w.kind q = κ := by
    intro q κ hq hκ
    refine (hsame q fun h => hκ ?_).symm.trans hq
    rw [← hq, h]
    exact Function.update_self _ _ _
  have hquiet : Settled w → Settled { w with kind := Function.update w.kind p .host } :=
    fun h => ⟨h.closing, h.active, fun q hq => h.cleanups q (hhost q _ hq (by simp))⟩
  refine ⟨⟨?_, ?_, ?_, hi.closers, ?_, ?_⟩, ?_, ?_⟩
  · intro q hq
    have hlive := hi.live q hq
    exact ⟨(hsame q fun h => hfree (h ▸ hq)).trans hlive.1, hlive.2⟩
  · exact fun q hq => hi.fresh q (hhost q _ hq (by simp))
  · exact fun q hq => hi.settlers q (hhost q _ hq (by simp))
  · exact fun q hq => hquiet (hi.drained q hq)
  · exact fun h => hquiet (hi.released h)
  · intro q hq
    refine Loop.place_congr rfl (hsame q fun h => hq ?_) Iff.rfl rfl
    rw [h]
    exact List.mem_singleton.mpr rfl
  · intro f hf
    rw [List.mem_singleton.mp hf]
    have hout : (Loop.place p { w with kind := Function.update w.kind p .host }).standing
        = .outside := by
      unfold Loop.place Loop.standing
      simp [hidle.1, hfree]
    exact asTask_follows (t.valid.follows (Or.inl hout) fun h => absurd h (by simp)) (Or.inl hout)

theorem callback_inv {p : Pid} (hi : LoopInv w) (hp : w.finished p = true) :
    LoopInv { w with cleanups := w.cleanups.erase p } := by
  have hquiet : Settled w → Settled { w with cleanups := w.cleanups.erase p } :=
    fun h => ⟨h.closing, h.active, h.cleanups⟩
  refine ⟨hi.live, hi.fresh, ?_, hi.closers, fun q hq => hquiet (hi.drained q hq),
    fun h => hquiet (hi.released h)⟩
  intro q hq hfinished
  refine Finset.mem_erase.mpr ⟨fun h => ?_, hi.settlers q hq hfinished⟩
  rw [h, hp] at hfinished
  exact Bool.noConfusion hfinished

theorem Loop.env_advances {e : LoopEnv} (hi : LoopInv w) (hx : w.env e = some (w', fs)) :
    LoopInv w' ∧ (∀ q, q ∉ fs.map Prod.fst → w'.place q = w.place q) ∧
      ∀ f ∈ fs, lifetime.Follows IsOver (w'.place f.1) f.2 := by
  cases e with
  | tick d =>
    obtain ⟨rfl, rfl⟩ : _ ∧ _ := by simpa only [Loop.env, Option.some.injEq, Prod.mk.injEq] using hx
    have hquiet : Settled w → Settled { w with clock := w.clock + d } :=
      fun h => ⟨h.closing, h.active, h.cleanups⟩
    exact ⟨⟨hi.live, hi.fresh, hi.settlers, hi.closers, fun q hq => hquiet (hi.drained q hq),
      fun h => hquiet (hi.released h)⟩, fun _ _ => rfl, no_forks⟩
  | start p t =>
    simp only [Loop.env] at hx
    split at hx
    · next hidle =>
      obtain ⟨rfl, rfl⟩ : _ ∧ _ := by simpa only [Option.some.injEq, Prod.mk.injEq] using hx
      exact start_advances hi hidle
    · exact absurd hx (by simp)
  | callback p =>
    simp only [Loop.env] at hx
    split at hx
    · next hfinished =>
      obtain ⟨rfl, rfl⟩ : _ ∧ _ := by simpa only [Option.some.injEq, Prod.mk.injEq] using hx
      exact ⟨callback_inv hi hfinished, fun _ _ => rfl, no_forks⟩
    · exact absurd hx (by simp)

/-- The runtime knows the place of every task. -/
theorem lifetime_tracks : lifetime.Tracks eventLoop LoopInv Loop.place IsOver where
  exec _ _ _ _ _ _ _ hi hx ho :=
    let h := Loop.exec_advances hi hx ho
    ⟨h.inv, h.answers, h.place⟩
  others _ _ _ _ _ _ _ hi hx ho := (Loop.exec_advances hi hx ho).others
  forks _ _ _ _ _ _ _ hi hx ho := (Loop.exec_advances hi hx ho).forks
  env _ _ _ _ hi hx := Loop.env_advances hi hx

/-- The runtime has been released: a shutdown has returned `True`, or the host has closed what the
runtime uses. -/
def Released (w : Loop) : Prop := w.disposed = true ∨ ∃ p, w.door p = .drained

theorem Released.settled (hi : LoopInv w) (h : Released w) : Settled w := by
  rcases h with hdisposed | ⟨p, hdoor⟩
  · exact hi.released hdisposed
  · exact hi.drained p hdoor

theorem Released.congr (h : Released w) (hdisposed : w'.disposed = w.disposed)
    (hdoor : ∀ p, w.door p = .drained → w'.door p = .drained) : Released w' := by
  rcases h with hd | ⟨p, hp⟩
  · exact Or.inl (hdisposed.trans hd)
  · exact Or.inr ⟨p, hdoor p hp⟩

/-- Nobody takes it back. -/
theorem Released.exec {p : Pid} {o : LoopOp} {ch : LoopChoice} {r : Except Exn (LoopRes o)}
    (h : Released w) (hx : w.exec p o ch = some (r, w', fs)) : Released w' := by
  cases o with
  | close =>
    simp only [Loop.exec] at hx
    split at hx
    · obtain ⟨-, rfl, -⟩ := reply_eq hx
      exact h
    · obtain ⟨-, rfl, -⟩ := reply_eq hx
      refine h.congr rfl fun q hq => ?_
      by_cases hqp : q = p
      · subst hqp
        exact (Function.update_self _ _ _).trans (if_pos hq)
      · exact (Function.update_of_ne hqp _ _).trans hq
  | pending =>
    obtain ⟨-, rfl, -⟩ := reply_eq hx
    refine h.congr rfl fun q hq => ?_
    dsimp only
    split
    · by_cases hqp : q = p
      · subst hqp
        exact Function.update_self _ _ _
      · exact (Function.update_of_ne hqp _ _).trans hq
    · exact hq
  | dispose =>
    obtain ⟨-, rfl, -⟩ := reply_eq hx
    exact Or.inl rfl
  | inner o =>
    obtain ⟨rfl, -⟩ := inner_same hx
    exact h
  | _ =>
    simp only [Loop.exec] at hx
    repeat' split at hx
    all_goals first
      | (obtain ⟨-, rfl, -⟩ := reply_eq hx
         exact h.congr rfl fun _ hq => hq)
      | (obtain ⟨-, rfl, -⟩ : _ ∧ _ ∧ _ := by
          simpa only [Option.some.injEq, Prod.mk.injEq] using hx
         exact h.congr rfl fun _ hq => hq)
      | exact absurd hx (by simp)

theorem Released.env {e : LoopEnv} (h : Released w) (hx : w.env e = some (w', fs)) :
    Released w' := by
  cases e with
  | tick d =>
    obtain ⟨rfl, -⟩ : _ ∧ _ := by simpa only [Loop.env, Option.some.injEq, Prod.mk.injEq] using hx
    exact h
  | _ =>
    simp only [Loop.env] at hx
    split at hx
    · obtain ⟨rfl, -⟩ : _ ∧ _ := by simpa only [Option.some.injEq, Prod.mk.injEq] using hx
      exact h
    · exact absurd hx (by simp)

end Runs

/-- `c` is reached from `c₀`. -/
abbrev LoopCfg.Reaches (c₀ c : LoopCfg) : Prop := eventLoop.Reaches (fun _ _ => True) c₀ c

theorem LoopCfg.Reaches.released {c₀ c : LoopCfg} (hr : c₀.Reaches c) (h : Released c₀.world) :
    Released c.world := by
  induction hr with
  | refl => exact h
  | step _ _ hs ih =>
    rcases Machine.step_cases hs with ⟨p, ch, o, k, r, fs, -, -, hx, -⟩ | ⟨e, fs, -, hx, -⟩
    · exact ih.exec hx
    · exact ih.env hx

theorem LoopInv.initial (clock : Time) : LoopInv (.initial clock) where
  live _ h := absurd h (Finset.notMem_empty _)
  fresh _ _ := ⟨rfl, rfl⟩
  settlers _ h _ := LoopKind.noConfusion h
  closers _ h := absurd rfl h
  drained _ h := Door.noConfusion h
  released h := Bool.noConfusion h

/-- The two sets, and the place of every task. -/
theorem LoopCfg.Reaches.sound {clock : Time} {c : LoopCfg}
    (hr : (LoopCfg.initial clock).Reaches c) :
    LoopInv c.world ∧ ∀ p m, c.procs p = some m → lifetime.Follows IsOver (c.world.place p) m :=
  lifetime_tracks.follows (LoopInv.initial clock) (fun _ => rfl) hr

end AgentRuntimeKit
