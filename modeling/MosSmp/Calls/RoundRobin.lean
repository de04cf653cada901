import MosSmp.Calls.Envs
import MosSmp.Lib.Turns

/-!
The order in which `schedule` gives the CPU away. The chosen environment
stays at the head of the run queue while its time slices last and is moved to
the tail when they are used up, so timer ticks go through the queue giving
each environment as many slices as its priority says. With `yield` set, the
caller is moved to the tail first and the first environment of the rotated
queue that this CPU may run is chosen.
-/

namespace MosSmp

open Lib Lib.Turns Function List Option

namespace Kern

variable {k k' : Kern} {c : CpuId} {e x : EnvIdx} {xs ys : List EnvIdx}

theorem pickNext_of_rep (h : k.envSchedList.Rep xs) :
    k.pickNext c = match xs.find? (k.eligible c) with
      | some e => .run e (k.assign c e)
      | none => .spin k := by
  unfold pickNext
  rw [pick_of_rep k c h]
  cases xs.find? (k.eligible c) <;> rfl

/-- The queue after the caller has been moved to its tail. -/
def rotated (k : Kern) (c : CpuId) (xs : List EnvIdx) : List EnvIdx :=
  match k.curenv c with
  | none => xs
  | some e => if k.status e = .runnable then xs.erase e ++ [e] else xs

theorem rep_release (h : k.envSchedList.Rep xs)
    (hqueued : ∀ e, k.curenv c = some e → k.status e = .runnable → e ∈ xs) :
    (k.release c).envSchedList.Rep (k.rotated c xs) := by
  unfold rotated
  cases hcur : k.curenv c with
  | none =>
    rw [envSchedList_release_same k c (by simp [hcur])]
    exact h
  | some e =>
    by_cases hrun : k.status e = .runnable
    · simp only [if_pos hrun]
      rw [envSchedList_release_rotate k c e hcur hrun]
      have hnot : e ∉ xs.erase e := fun hmem => (h.1.mem_erase_iff.mp hmem).1 rfl
      exact (h.remove (hqueued e hcur hrun)).insertTail hnot
    · simp only [if_neg hrun]
      rw [envSchedList_release_same]
      · exact h
      · intro f hf
        rw [← some.inj (hcur.symm.trans hf)]
        exact hrun

@[simp] theorem envSchedList_switchTo : (k.switchTo c e).envSchedList = k.envSchedList := by
  unfold switchTo
  cases k.curenv c <;> rfl

theorem schedCount_switchTo :
    ((k.switchTo c e).cpuData c).schedCount = (k.cpuData c).schedCount := by
  unfold switchTo
  cases k.curenv c <;> simp [cpuData_updCpu]

/-- Two kernel states agree on everything that decides about the next
environment of CPU `c`. -/
structure SameTurns (k k' : Kern) (c : CpuId) : Prop where
  queue : k'.envSchedList = k.envSchedList
  curenv : k'.curenv c = k.curenv c
  count : (k'.cpuData c).schedCount = (k.cpuData c).schedCount
  status : k'.status = k.status
  pri : ∀ e, (k'.envs e).envPri = (k.envs e).envPri
  pinned : ∀ e, (k'.envs e).envPinnedCpu = (k.envs e).envPinnedCpu
  pending : ∀ e, (k'.envs e).envKillPending = (k.envs e).envKillPending
  running : ∀ e, (k'.envs e).envRunning = (k.envs e).envRunning
  cpu : ∀ e, (k'.envs e).envCpuId = (k.envs e).envCpuId

theorem SameTurns.refl (k : Kern) (c : CpuId) : SameTurns k k c :=
  ⟨rfl, rfl, rfl, rfl, fun _ => rfl, fun _ => rfl, fun _ => rfl, fun _ => rfl, fun _ => rfl⟩

/-- The queue holds `xs`, all of them runnable, free to run on CPU `c` and
with at least one time slice. -/
structure Ready (k : Kern) (c : CpuId) (xs : List EnvIdx) : Prop where
  queue : k.envSchedList.Rep xs
  runnable : ∀ e ∈ xs, k.status e = .runnable
  eligible : ∀ e ∈ xs, k.eligible c e = true
  slice : ∀ e ∈ xs, 0 < (k.envs e).envPri.toNat

/-- The number of slices of each environment. -/
def slices (k : Kern) (e : EnvIdx) : Nat :=
  (k.envs e).envPri.toNat

theorem Ready.next (h : Ready k c xs) (hqueue : k'.envSchedList.Rep ys) (hsub : ys ⊆ xs)
    (hstatus : k'.status = k.status) (hslices : k'.slices = k.slices)
    (heligible : ∀ e, k.eligible c e = true → k'.eligible c e = true) : Ready k' c ys where
  queue := hqueue
  runnable e he := (congrFun hstatus e).trans (h.runnable e (hsub he))
  eligible e he := heligible e (h.eligible e (hsub he))
  slice e he := by
    have hpos : 0 < k.slices e := h.slice e (hsub he)
    rwa [← hslices] at hpos

section Same

variable (hsame : SameTurns k k' c)
include hsame

theorem SameTurns.eligible : k'.eligible c e = k.eligible c e := by
  unfold Kern.eligible
  rw [hsame.pinned, hsame.pending, hsame.running, hsame.cpu]

theorem SameTurns.slices : k'.slices = k.slices := by
  funext e
  exact congrArg BitVec.toNat (hsame.pri e)

theorem Ready.same (h : Ready k c xs) : Ready k' c xs :=
  h.next (hsame.queue ▸ h.queue) (List.Subset.refl xs) hsame.status hsame.slices
    (fun _ he => hsame.eligible.trans he)

end Same

theorem eligible_release (he : k.eligible c e = true) : (k.release c).eligible c e = true := by
  unfold eligible at he ⊢
  by_cases hcur : k.curenv c = some e
  · rw [envs_release k c e hcur]
    simp_all
  · rw [envs_release_ne k c e hcur]
    exact he

theorem slices_release : (k.release c).slices = k.slices := by
  funext e
  unfold slices
  by_cases hcur : k.curenv c = some e
  · rw [envs_release k c e hcur, update_self]
  · rw [envs_release_ne k c e hcur]

theorem eligible_assign (hx : k.eligible c x = true) : (k.assign c e).eligible c x = true := by
  unfold eligible at hx ⊢
  rw [envs_assign]
  by_cases hxe : x = e
  · subst hxe
    simp_all
  · rw [update_of_ne hxe]
    exact hx

theorem slices_assign : (k.assign c e).slices = k.slices := by
  funext x
  unfold slices
  rw [envs_assign]
  by_cases hxe : x = e
  · rw [hxe, update_self]
  · rw [update_of_ne hxe]

theorem Ready.assign (h : Ready k c xs) : Ready (k.assign c e) c xs :=
  h.next h.queue (List.Subset.refl xs) (Sys.status_assign k c e) slices_assign
    (fun _ => eligible_assign)

theorem slices_switchTo : (k.switchTo c e).slices = k.slices := by
  funext x
  unfold slices
  rw [envs_switchTo]

theorem Ready.switchTo (h : Ready k c xs) : Ready (k.switchTo c e) c xs := by
  refine h.next ?_ (List.Subset.refl xs) ?_ slices_switchTo (fun x hx => ?_)
  · rw [envSchedList_switchTo]
    exact h.queue
  · funext x
    unfold status
    rw [envs_switchTo]
  · unfold Kern.eligible at hx ⊢
    rw [envs_switchTo]
    exact hx

/-- The environments that the next ticks give CPU `c` to are those of
`future`. -/
inductive Due (k : Kern) (c : CpuId) (future : Nat → Option EnvIdx) : Prop
  | idle (xs : List EnvIdx) (hcur : k.curenv c = none) (hready : Ready k c xs)
      (hfuture : ∀ j, future j = cycle (slots k.slices xs) j)
  | busy (e : EnvIdx) (xs : List EnvIdx) (hcur : k.curenv c = some e)
      (hready : Ready k c (e :: xs))
      (hfuture : ∀ j, future j = upcoming k.slices e (k.cpuData c).schedCount.toNat xs j)

variable {future : Nat → Option EnvIdx}

theorem Due.same (h : Due k c future) (hsame : SameTurns k k' c) : Due k' c future := by
  cases h with
  | idle xs hcur hready hfuture =>
    refine .idle xs (hsame.curenv.trans hcur) (hready.same hsame) ?_
    rw [hsame.slices]
    exact hfuture
  | busy e xs hcur hready hfuture =>
    refine .busy e xs (hsame.curenv.trans hcur) (hready.same hsame) ?_
    rw [hsame.slices, hsame.count]
    exact hfuture

/-- A tick gives the CPU to `future 0` and leaves the rest due. Without a
ready environment the CPU stays in the inner loop. -/
inductive Served (c : CpuId) (future : Nat → Option EnvIdx) : SchedOutcome → Prop
  | run (e : EnvIdx) (k : Kern) (hrun : k.status e = .runnable)
      (hnow : future 0 = some e) (hdue : Due (k.switchTo c e) c (fun j => future (j + 1))) :
      Served c future (.run e k)
  | spin (k : Kern) (hcur : k.curenv c = none) (hnow : future 0 = none)
      (hdue : Due k c (fun j => future (j + 1))) : Served c future (.spin k)

/-- The CPU goes on with the head of the queue, which has `sched_count` slices
after this one. -/
theorem Ready.run (h : Ready k c (e :: xs))
    (hfuture : ∀ j, future j = upcoming k.slices e ((k.cpuData c).schedCount.toNat + 1) xs j) :
    Served c future (.run e k) := by
  refine .run e k (h.runnable e mem_cons_self) (hfuture 0) (.busy e xs ?_ h.switchTo ?_)
  · rw [curenv_switchTo, update_self]
  · intro j
    rw [hfuture, upcoming_succ, schedCount_switchTo, slices_switchTo]

theorem toNat_pred {w : Word} (hw : 0 < w.toNat) : (w - 1).toNat + 1 = w.toNat := by
  bv_omega

/-- The head of the queue is chosen and starts its slices. -/
theorem Ready.served (h : Ready k c xs) (hfuture : ∀ j, future j = cycle (slots k.slices xs) j)
    (hcur : xs = [] → k.curenv c = none) : Served c future (k.pickNext c) := by
  rw [pickNext_of_rep h.queue]
  cases xs with
  | nil =>
    refine .spin k (hcur rfl) (hfuture 0) (.idle [] (hcur rfl) h (fun j => ?_))
    rw [hfuture]
    rfl
  | cons x =>
    have hpos : 0 < k.slices x := h.slice x mem_cons_self
    rw [find?_cons_of_pos (h.eligible x mem_cons_self)]
    refine h.assign.run (fun j => ?_)
    have hcount : ((k.assign c x).cpuData c).schedCount.toNat + 1 = k.slices x := by
      unfold Kern.assign
      rw [cpuData_updCpu, if_pos rfl]
      exact toNat_pred hpos
    rw [hfuture, hcount, slices_assign, cycle_slots_cons]
    rfl

theorem Due.served (h : Due k c future) : Served c future (k.schedSection c false) := by
  unfold schedSection switches
  cases h with
  | idle xs hcur hready hfuture =>
    have hrelease : k.release c = k := by
      unfold release
      rw [hcur]
    simp only [hcur, Bool.or_true, if_true]
    rw [hrelease]
    exact hready.served hfuture (fun _ => hcur)
  | busy e xs hcur hready hfuture =>
    have hrun : (k.envs e).envStatus = .runnable := hready.runnable e mem_cons_self
    simp only [hcur, hrun, Bool.false_or, ne_eq, not_true_eq_false, decide_false, Bool.or_false,
      decide_eq_true_eq]
    by_cases hcount : (k.cpuData c).schedCount = 0
    · -- The slices are used up: the environment goes to the tail.
      have hrotated : k.rotated c (e :: xs) = xs ++ [e] := by
        unfold rotated status
        simp only [hcur, hrun, if_true, erase_cons_head]
      have hqueue := rep_release (c := c) hready.queue (fun f hf _ => by
        rw [← some.inj (hcur.symm.trans hf)]
        exact mem_cons_self)
      rw [hrotated] at hqueue
      have hready' := hready.next hqueue (by simp) (status_release k c) slices_release
        (fun _ => eligible_release)
      rw [if_pos hcount]
      refine hready'.served (fun j => ?_) (by simp)
      rw [hfuture, hcount, slices_release]
      exact upcoming_zero j
    · have hpos : 0 < (k.cpuData c).schedCount.toNat :=
        Nat.pos_of_ne_zero (fun h0 => hcount (BitVec.eq_of_toNat_eq h0))
      have hdown : ((k.countDown c).cpuData c).schedCount.toNat + 1 =
          (k.cpuData c).schedCount.toNat := by
        unfold countDown
        rw [cpuData_updCpu, if_pos rfl]
        exact toNat_pred hpos
      have hready' : Ready (k.countDown c) c (e :: xs) :=
        hready.next hready.queue (List.Subset.refl _) rfl rfl (fun _ hx => hx)
      rw [if_neg hcount]
      refine hready'.run (fun j => ?_)
      rw [hfuture, hdown]
      rfl

end Kern

namespace MemSys

open Kern

variable {n : Nat} {s s' t u : MemSys n} {c : CpuId} {future : Nat → Option EnvIdx}

theorem checkKillPending_of_due (h : Due s.kern c future) : s.checkKillPending c = some s := by
  unfold checkKillPending
  cases h with
  | idle xs hcur => rw [hcur]
  | busy e xs hcur hready =>
    have hpending := eligible_not_pending _ _ _ (hready.eligible e mem_cons_self)
    simp only [hcur, hpending, Bool.false_eq_true, if_false]

theorem resume_of_served {outcome : SchedOutcome} (h : Served c future outcome) :
    ∃ t, s.resume outcome c = some t ∧ t.kern.curenv c = future 0 ∧
      Due t.kern c (fun j => future (j + 1)) := by
  cases h with
  | run e k hrun hnow hdue =>
    refine ⟨s.setKern (k.switchTo c e), if_pos hrun, ?_, hdue⟩
    rw [hnow]
    exact (congrFun (curenv_switchTo ..) c).trans (update_self ..)
  | spin k hcur hnow hdue => exact ⟨s.setKern k, rfl, hcur.trans hnow.symm, hdue⟩

/-- A timer tick gives the CPU to the environment that is due. -/
theorem schedule_of_due (h : Due s.kern c future) :
    ∃ t, s.schedule c false = some t ∧ t.kern.curenv c = future 0 ∧
      Due t.kern c (fun j => future (j + 1)) := by
  have hready : SameTurns s.kern
      { s.kern with timerScheduleReady := s.kern.timerScheduleReady || c = 0 } c :=
    ⟨rfl, rfl, rfl, rfl, fun _ => rfl, fun _ => rfl, fun _ => rfl, fun _ => rfl, fun _ => rfl⟩
  unfold schedule
  rw [checkKillPending_of_due h, bind_some]
  exact resume_of_served (h.same hready).served

/-- CPU `c` has had `m` timer ticks since `s`. Between two of them anything may
happen that the scheduler does not see. -/
inductive Ticks (s : MemSys n) (c : CpuId) : Nat → MemSys n → Prop
  | start : Ticks s c 0 s
  | tick {m : Nat} {t t' u : MemSys n} : Ticks s c m t → SameTurns t.kern t'.kern c →
      t'.schedule c false = some u → Ticks s c (m + 1) u

theorem due_of_ticks {m : Nat} (h : Due s.kern c future) (hticks : Ticks s c m t) :
    Due t.kern c (fun j => future (m + j)) := by
  induction hticks with
  | start => simpa using h
  | tick _ hsame hsched ih =>
    obtain ⟨_, hu, _, hdue⟩ := schedule_of_due (ih.same hsame)
    cases hsched.symm.trans hu
    simpa only [Nat.add_assoc, Nat.add_comm 1] using hdue

end MemSys

namespace Kern

variable {k k' : Kern} {c : CpuId} {e x : EnvIdx} {xs : List EnvIdx}

/-- The environment that `schedule` chooses for a caller that yields: the
first one of the rotated queue that this CPU may run once the caller is no
longer marked as running. -/
def yieldChoice (k : Kern) (c : CpuId) (xs : List EnvIdx) : Option EnvIdx :=
  (k.rotated c xs).find? ((k.release c).eligible c)

theorem eligible_release_ne (h : k.curenv c ≠ some e) :
    (k.release c).eligible c e = k.eligible c e := by
  unfold eligible
  rw [envs_release_ne k c e h]

/-- The caller is the last one to be considered. -/
theorem yieldChoice_caller (hnodup : xs.Nodup) (honly : ∀ e ∈ xs, k.status e = .runnable)
    (hcur : k.curenv c = some e) (hchoice : k.yieldChoice c xs = some e) (hx : x ∈ xs)
    (hne : x ≠ e) : k.eligible c x = false := by
  have hrun : k.status e = .runnable := by
    have hmem := mem_of_find?_eq_some hchoice
    unfold rotated at hmem
    by_contra hnot
    simp only [hcur, if_neg hnot] at hmem
    exact hnot (honly e hmem)
  unfold yieldChoice rotated at hchoice
  simp only [hcur, if_pos hrun] at hchoice
  rw [← eligible_release_ne (fun h => hne (some.inj (h.symm.trans hcur)))]
  have hx' : x ∈ xs.erase e := (mem_erase_of_ne hne).mpr hx
  by_contra helig
  rw [Bool.not_eq_false] at helig
  obtain ⟨_, hy⟩ := isSome_iff_exists.mp (find?_isSome.mpr ⟨x, hx', helig⟩)
  rw [find?_append, hy, some_or, some.injEq] at hchoice
  subst hchoice
  exact (hnodup.mem_erase_iff.mp (mem_of_find?_eq_some hy)).1 rfl

theorem release_ready (b : Bool) : ({ k with timerScheduleReady := b } : Kern).release c =
      { k.release c with timerScheduleReady := b } := by
  unfold release updEnv curenv
  cases (k.cpuData c).curenv with
  | none => rfl
  | some =>
    dsimp only
    split <;> rfl

theorem rotated_subset (hqueued : ∀ e, k.status e = .runnable → e ∈ xs) : k.rotated c xs ⊆ xs := by
  intro x hx
  unfold rotated at hx
  split at hx
  · exact hx
  · next e _ =>
    split_ifs at hx with hrun
    · rcases mem_append.mp hx with hx | hx
      · exact mem_of_mem_erase hx
      · rw [mem_singleton.mp hx]
        exact hqueued e hrun
    · exact hx

theorem schedSection_yield (h : k.envSchedList.Rep xs)
    (hqueued : ∀ e, k.status e = .runnable → e ∈ xs) (b : Bool) :
    ({ k with timerScheduleReady := b } : Kern).schedSection c true =
      match k.yieldChoice c xs with
      | some e => .run e (({ k.release c with timerScheduleReady := b } : Kern).assign c e)
      | none => .spin { k.release c with timerScheduleReady := b } := by
  have hrotated := rep_release (c := c) h (fun e _ hrun => hqueued e hrun)
  unfold schedSection switches
  rw [release_ready]
  exact pickNext_of_rep (k := { k.release c with timerScheduleReady := b }) hrotated

end Kern

namespace MemSys

open Kern

variable {n : Nat} {s s₁ : MemSys n} {c : CpuId} {xs : List EnvIdx}

theorem schedule_yield (hkill : s.checkKillPending c = some s₁)
    (hqueue : s₁.kern.envSchedList.Rep xs)
    (honly : ∀ e, e ∈ xs ↔ s₁.kern.status e = .runnable) :
    ∃ t, s.schedule c true = some t ∧
      t.kern.curenv c = (s₁.kern.yieldChoice c xs).or (s₁.kern.curenv c) := by
  have hsub := rotated_subset (c := c) (fun e => (honly e).mpr)
  unfold schedule
  rw [hkill, bind_some]
  dsimp only
  rw [schedSection_yield hqueue (fun e => (honly e).mpr)]
  cases hchoice : s₁.kern.yieldChoice c xs with
  | none => exact ⟨_, rfl, congrFun (curenv_release ..) c⟩
  | some e =>
    have hrun : s₁.kern.status e = .runnable :=
      (honly e).mp (hsub (mem_of_find?_eq_some hchoice))
    refine ⟨_, if_pos ?_, (congrFun (curenv_switchTo ..) c).trans (update_self ..)⟩
    rw [← hrun, ← congrFun (status_release s₁.kern c) e]
    exact congrFun (Sys.status_assign { s₁.kern.release c with timerScheduleReady := _ } c e) e

/-- Timer ticks, from a CPU without an environment and with the queue `xs` of
ready ones, run the environments of `xs` in turn, each for as many ticks as
its priority says, and no tick fails. A caller that yields is followed by the
first environment of the rotated queue that its CPU may run, and by itself
only if there is no other. -/
theorem schedule_roundRobin : (∀ (n : Nat) (s : MemSys n) (c : CpuId) (xs : List EnvIdx),
      s.kern.curenv c = none → s.kern.Ready c xs →
      ∀ m t, Ticks s c m t → ∀ t' : MemSys n, SameTurns t.kern t'.kern c →
        ∃ u, t'.schedule c false = some u ∧ u.kern.curenv c = cycle (slots s.kern.slices xs) m) ∧
    (∀ (n : Nat) (s s₁ : MemSys n) (c : CpuId) (xs : List EnvIdx),
      s.checkKillPending c = some s₁ → s₁.kern.envSchedList.Rep xs →
      (∀ e, e ∈ xs ↔ s₁.kern.status e = .runnable) →
      (∃ u, s.schedule c true = some u ∧
        u.kern.curenv c = (s₁.kern.yieldChoice c xs).or (s₁.kern.curenv c)) ∧
      ∀ e, s₁.kern.curenv c = some e → s₁.kern.yieldChoice c xs = some e →
        ∀ x ∈ xs, x ≠ e → s₁.kern.eligible c x = false) := by
  refine ⟨fun n s c xs hcur hready m t hticks t' hsame => ?_,
    fun n s s₁ c xs hkill hqueue honly => ⟨schedule_yield hkill hqueue honly, ?_⟩⟩
  · have hdue := due_of_ticks (.idle xs hcur hready (fun _ => rfl)) hticks
    obtain ⟨u, hu, hnow, _⟩ := schedule_of_due (hdue.same hsame)
    exact ⟨u, hu, hnow⟩
  · intro e hcur hchoice x hx hne
    exact yieldChoice_caller hqueue.1 (fun e he => (honly e).mp he) hcur hchoice hx hne

/-- Two environments on the queue, the first with two slices and the second
with one. -/
def pairKern : Kern :=
  { (Kern.envInit.updEnv 0 (fun x => { x with envStatus := .runnable, envPri := 2 })).updEnv 1
      (fun x => { x with envStatus := .runnable, envPri := 1 }) with
    envSchedList := ((TailQ.empty : TailQ EnvIdx).insertTail 0).insertTail 1 }

def pairMem : MemSys (npage 0x8000) :=
  bootMem.setKern pairKern

theorem pairKern_ready : pairKern.Ready 0 [0, 1] where
  queue := (TailQ.rep_empty.insertTail (by simp)).insertTail (by decide)
  runnable := by decide +kernel
  eligible := by decide +kernel
  slice := by decide +kernel

/-- The first environment has the CPU for two ticks and the second for one. -/
theorem schedule_roundRobin_pair :
    ∃ t u v : MemSys (npage 0x8000), pairMem.schedule 0 false = some t ∧
      t.schedule 0 false = some u ∧ u.schedule 0 false = some v ∧
      t.kern.curenv 0 = some 0 ∧ u.kern.curenv 0 = some 0 ∧ v.kern.curenv 0 = some 1 := by
  have hcur : pairMem.kern.curenv 0 = none := by decide +kernel
  have hturn := schedule_roundRobin.1 _ pairMem 0 [0, 1] hcur pairKern_ready
  have hslots : slots pairMem.kern.slices [0, 1] = [0, 0, 1] := by decide +kernel
  rw [hslots] at hturn
  obtain ⟨t, ht, htcur⟩ := hturn 0 _ .start _ (.refl _ _)
  have hticks : Ticks pairMem 0 1 t := .tick .start (.refl _ _) ht
  obtain ⟨u, hu, hucur⟩ := hturn 1 t hticks _ (.refl _ _)
  have hticks' : Ticks pairMem 0 2 u := .tick hticks (.refl _ _) hu
  obtain ⟨v, hv, hvcur⟩ := hturn 2 u hticks' _ (.refl _ _)
  exact ⟨t, u, v, ht, hu, hv, htcur, hucur, hvcur⟩

/-- At its tick after `m` others CPU `c` turns to `e`. -/
def TurnsTo (s : MemSys n) (c : CpuId) (m : Nat) (e : EnvIdx) : Prop :=
  ∀ t t' : MemSys n, Ticks s c m t → SameTurns t.kern t'.kern c →
    ∃ u, t'.schedule c false = some u ∧ u.kern.curenv c = some e

/-- Counted from any tick, every ready environment gets the CPU within as many
ticks as the priorities add up to. -/
theorem schedule_boundedWait {e : EnvIdx} (hcur : s.kern.curenv c = none)
    (hready : s.kern.Ready c xs) (he : e ∈ xs) (m : Nat) :
    ∃ k < (xs.map s.kern.slices).sum, s.TurnsTo c (m + k) e := by
  have hmem : e ∈ slots s.kern.slices xs :=
    mem_flatMap.mpr ⟨e, he, mem_replicate.mpr ⟨(hready.slice e he).ne', rfl⟩⟩
  obtain ⟨k, hk, hke⟩ := getElem_of_mem ((mem_rotate (n := m)).mpr hmem)
  refine ⟨k, by simpa [slots] using hk, fun t t' hticks hsame => ?_⟩
  have hdue := due_of_ticks (.idle xs hcur hready (fun _ => rfl)) hticks
  obtain ⟨u, hu, hnow, _⟩ := schedule_of_due (hdue.same hsame)
  refine ⟨u, hu, hnow.trans ?_⟩
  rw [getElem_rotate, Nat.add_comm] at hke
  exact List.getElem?_eq_some_iff.mpr ⟨_, hke⟩

/-- The second environment waits, from tick 4 on, for at most three. -/
theorem schedule_boundedWait_pair :
    ∃ k < (map pairMem.kern.slices [0, 1]).sum, pairMem.TurnsTo 0 (4 + k) 1 :=
  schedule_boundedWait (by decide +kernel) pairKern_ready (by decide) 4

end MemSys

end MosSmp
