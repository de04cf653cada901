import MosSmp.Smp.EnvEffect

/-!
What a step can do to the statuses and to the two queues together. Six
operations insert into or remove from the queues, each in a section that also
sets a status or trusts a test of one; `QueueEffect` states for each of them
the status function and the links afterwards.
-/

namespace MosSmp

open Lib Function Kern

namespace Kern

def status (k : Kern) (e : EnvIdx) : EnvStatus :=
  (k.envs e).envStatus

theorem status_of_envs {k k' : Kern} {e : EnvIdx} {x : Env} {st : EnvStatus}
    (h : k'.envs = update k.envs e x) (hx : x.envStatus = st) :
    k'.status = update k.status e st := by
  subst hx
  funext f
  unfold status
  rw [h]
  by_cases hf : f = e
  · subst hf
    simp
  · simp [update_of_ne hf]

theorem status_of_envs_same {k k' : Kern} {e : EnvIdx} {x : Env}
    (h : k'.envs = update k.envs e x) (hx : x.envStatus = k.status e) :
    k'.status = k.status := by
  rw [status_of_envs h hx, update_eq_self]

theorem envid2env_live {k : Kern} {cur e : EnvIdx} {envid : Word} {checkperm : Bool}
    (h : k.envid2env cur envid checkperm = .ok e) (hcur : k.status cur ≠ .free) :
    k.status e ≠ .free := by
  unfold envid2env at h
  split at h
  · cases h
    exact hcur
  · dsimp only at h
    split at h
    · cases h
    · next hnot =>
      split at h <;> cases h
      exact fun hfree => hnot (.inl hfree)

variable (k : Kern) (c : CpuId) (e : EnvIdx)

theorem envFreeList_statusSection (st : EnvStatus) :
    (k.statusSection e st).envFreeList = k.envFreeList := by
  unfold statusSection updEnv
  split
  · rfl
  · split <;> rfl

theorem envSchedList_statusSection (st : EnvStatus) : (k.statusSection e st).envSchedList =
      if st = .runnable ∧ k.status e ≠ .runnable then k.envSchedList.insertTail e
      else if st = .notRunnable ∧ k.status e ≠ .notRunnable then k.envSchedList.remove e
      else k.envSchedList := by
  unfold statusSection updEnv status
  split
  · rfl
  · split <;> rfl

theorem envFreeList_freeSection : (k.freeSection e).envFreeList = k.envFreeList.insertHead e := by
  unfold freeSection updEnv
  split <;> rfl

theorem envSchedList_freeSection : (k.freeSection e).envSchedList =
      if k.status e = .runnable then k.envSchedList.remove e else k.envSchedList := by
  unfold freeSection updEnv status
  split <;> rfl

theorem envFreeList_release : (k.release c).envFreeList = k.envFreeList := by
  unfold release updEnv
  split
  · rfl
  · dsimp only
    split <;> rfl

theorem status_release : (k.release c).status = k.status := by
  cases hcur : k.curenv c with
  | none =>
    unfold release
    rw [hcur]
  | some e => exact status_of_envs_same (envs_release k c e hcur) rfl

theorem envSchedList_release_rotate (hcur : k.curenv c = some e) (hst : k.status e = .runnable) :
    (k.release c).envSchedList = (k.envSchedList.remove e).insertTail e := by
  unfold release updEnv
  rw [hcur]
  unfold status at hst
  simp [hst]

theorem envSchedList_release_same (h : ∀ e, k.curenv c = some e → k.status e ≠ .runnable) :
    (k.release c).envSchedList = k.envSchedList := by
  unfold release updEnv
  split
  · rfl
  · next e hcur =>
    have hst := h e hcur
    unfold status at hst
    simp [hst]

/-- On a well-formed queue the inner loop of `schedule` is a search in the
list of its environments. -/
theorem pick_of_rep {xs : List EnvIdx} (h : k.envSchedList.Rep xs) :
    k.pick c = match xs.find? (k.eligible c) with
      | some e => .found e
      | none => .exhausted := by
  have hfuel : xs.length ≤ NENV := by
    simpa using h.1.length_le_card
  have hscan := Links.scan_of_seg (p := k.eligible c) h.2.1 h.2.2 hfuel
  cases hfind : xs.find? (k.eligible c) with
  | none | some =>
    rw [hfind] at hscan
    exact hscan

theorem pick_holds {P : EnvIdx → Prop} (hq : k.envSchedList.Holds P) (h : k.pick c = .found e) :
    P e := by
  obtain ⟨xs, hrep, hmem⟩ := hq
  rw [pick_of_rep k c hrep] at h
  cases hfind : xs.find? (k.eligible c) with
  | none =>
    rw [hfind] at h
    cases h
  | some =>
    rw [hfind] at h
    cases h
    exact (hmem e).mp (List.mem_of_find?_eq_some hfind)

-- Stated for every size: unification would otherwise evaluate the list of all slots.
theorem rep_foldr_finRange (n : Nat) :
    ((List.finRange n).foldr (fun e q => q.insertHead e) (Links.empty : Links (Fin n))).Rep
      (List.finRange n) :=
  Links.rep_foldr_insertHead (List.nodup_finRange n)

theorem envFreeList_envInit : envInit.envFreeList =
    (List.finRange NENV).foldr (fun e q => q.insertHead e) (Links.empty : Links EnvIdx) := by
  unfold envInit
  with_reducible rfl

theorem rep_envInit : envInit.envFreeList.Rep (List.finRange NENV) := by
  rw [envFreeList_envInit]
  exact rep_foldr_finRange NENV

/-- The free list is exactly the list of free slots, and the run queue
exactly that of the runnable environments, when the CPUs start. -/
theorem boot_queues {images : List Image} {k : Kern} (hboot : boot images = some k) :
    k.envFreeList.Holds (fun e => k.status e = .free) ∧
      k.envSchedList.Holds (fun e => k.status e = .runnable) := by
  apply boot_induct (P := fun k => k.envFreeList.Holds (fun e => k.status e = .free) ∧
    k.envSchedList.Holds (fun e => k.status e = .runnable)) _ _ hboot
  · refine ⟨⟨List.finRange NENV, rep_envInit, ?_⟩, ⟨[], TailQ.rep_empty, ?_⟩⟩
    · intro e
      exact ⟨fun _ => rfl, fun _ => List.mem_finRange e⟩
    · intro e
      exact ⟨nofun, nofun⟩
  · rintro k _ k' ⟨hfree, hsched⟩ hcreate
    obtain ⟨e, hfirst, _, _, _, hk'⟩ := envCreate_some hcreate
    have he : k.status e = .free := hfree.first hfirst
    have hst : k'.status = update k.status e .runnable := by
      rw [hk']
      exact status_of_envs rfl rfl
    rw [hst]
    refine ⟨?_, ?_⟩
    · rw [hk']
      refine (hfree.remove he).congr fun f => ?_
      by_cases hf : f = e <;> simp [hf]
    · rw [hk']
      refine (hsched.insertHead (by simp [he])).congr fun f => ?_
      by_cases hf : f = e <;> simp [hf]

end Kern

namespace Sys

/-- What a step of CPU `c` does to the statuses and the queues. -/
inductive QueueEffect (s : Sys) (c : CpuId) (s' : Sys) : Prop
  | same : s'.kern.status = s.kern.status → s'.kern.envFreeList = s.kern.envFreeList →
      s'.kern.envSchedList = s.kern.envSchedList → QueueEffect s c s'
  | block (e : EnvIdx) (dstva : Word) : s.pc c = .recvLock dstva → s.kern.curenv c = some e →
      s'.kern.status = update s.kern.status e .notRunnable →
      s'.kern.envFreeList = s.kern.envFreeList →
      s'.kern.envSchedList = s.kern.envSchedList.remove e → QueueEffect s c s'
  | status (e : EnvIdx) (st : EnvStatus) : s.pc c = .statusLock e st →
      s'.kern.status = update s.kern.status e st →
      s'.kern.envFreeList = s.kern.envFreeList →
      (s'.kern.envSchedList =
        if st = .runnable ∧ s.kern.status e ≠ .runnable then s.kern.envSchedList.insertTail e
        else if st = .notRunnable ∧ s.kern.status e ≠ .notRunnable then
          s.kern.envSchedList.remove e
        else s.kern.envSchedList) → QueueEffect s c s'
  | wake (e : EnvIdx) : s.pc c = .sendWake e →
      s'.kern.status = update s.kern.status e .runnable →
      s'.kern.envFreeList = s.kern.envFreeList →
      s'.kern.envSchedList = s.kern.envSchedList.insertTail e → QueueEffect s c s'
  | free (e : EnvIdx) (kind : FreeKind) : s.pc c = .freeLock e kind →
      s'.kern.status = update s.kern.status e .free →
      s'.kern.envFreeList = s.kern.envFreeList.insertHead e →
      (s'.kern.envSchedList =
        if s.kern.status e = .runnable then s.kern.envSchedList.remove e
        else s.kern.envSchedList) → QueueEffect s c s'
  | fork (e : EnvIdx) : s.pc c = .sys .exofork → s.kern.envFreeList.first = some e →
      s'.kern.status = update s.kern.status e .notRunnable →
      s'.kern.envFreeList = s.kern.envFreeList.remove e →
      s'.kern.envSchedList = s.kern.envSchedList → QueueEffect s c s'
  | rotate (e : EnvIdx) : s.kern.status e = .runnable →
      s'.kern.status = s.kern.status → s'.kern.envFreeList = s.kern.envFreeList →
      s'.kern.envSchedList = (s.kern.envSchedList.remove e).insertTail e → QueueEffect s c s'

variable {s s' : Sys} {c : CpuId}

theorem QueueEffect.of_release (hst : s'.kern.status = (s.kern.release c).status)
    (hfree : s'.kern.envFreeList = (s.kern.release c).envFreeList)
    (hsched : s'.kern.envSchedList = (s.kern.release c).envSchedList) : QueueEffect s c s' := by
  rw [status_release] at hst
  rw [envFreeList_release] at hfree
  by_cases hcur : ∃ e, s.kern.curenv c = some e ∧ s.kern.status e = .runnable
  · obtain ⟨e, hcur, hrun⟩ := hcur
    rw [envSchedList_release_rotate _ _ _ hcur hrun] at hsched
    exact .rotate e hrun hst hfree hsched
  · rw [envSchedList_release_same] at hsched
    · exact .same hst hfree hsched
    · intro e he hrun
      exact hcur ⟨e, he, hrun⟩

theorem status_assign (k : Kern) (c : CpuId) (e : EnvIdx) : (k.assign c e).status = k.status :=
  status_of_envs_same (envs_assign k c e) rfl

theorem StepCase.queue_effect (h : StepCase s c s') : QueueEffect s c s' := by
  cases h with
  | forkFails hpc _ hfork =>
    rcases exofork_error hfork with rfl | ⟨e, pgdir, _, rfl⟩
    · exact .same rfl rfl rfl
    · exact .same (status_of_envs_same rfl rfl) rfl rfl
  | @forks cur e vm k hpc _ hfork =>
    obtain ⟨hfirst, pgdir, _, _, _, rfl⟩ := exofork_ok e hfork
    exact .fork e hpc hfirst (status_of_envs rfl rfl) rfl rfl
  | installOther | sendTake | sendUndo | sendFill | destroyRemote | destroyLocal =>
    exact .same (status_of_envs_same rfl rfl) rfl rfl
  | recv hpc hcur => exact .block _ _ hpc hcur (status_of_envs rfl rfl) rfl rfl
  | setStatus hpc =>
    exact .status _ _ hpc (status_of_envs (envs_statusSection ..) rfl)
      (envFreeList_statusSection ..) (envSchedList_statusSection ..)
  | sendWake hpc => exact .wake _ hpc (status_of_envs rfl rfl) rfl rfl
  | free hpc =>
    exact .free _ _ hpc (status_of_envs (envs_freeSection ..) rfl)
      (envFreeList_freeSection ..) (envSchedList_freeSection ..)
  | switchRun => exact .of_release (status_assign ..) rfl rfl
  | switchSpin => exact .of_release rfl rfl rfl
  | spinRun => exact .same (status_assign ..) rfl rfl
  | @run f hpc hst =>
    have hstatus : (s.kern.switchTo c f).status = s.kern.status := by
      funext e
      unfold status
      rw [envs_switchTo]
    refine .same hstatus ?_ ?_ <;>
      · simp only [goto_kern, setKern_kern, switchTo]
        cases s.kern.curenv c <;> rfl
  | _ => exact .same rfl rfl rfl

end Sys

end MosSmp
