import MosSmp.Smp.Create

/-!
The ids of environments. `mkenvid` shifts a counter by eleven bits and adds
the slot, in a 32-bit word. The counter is never reset, so after 2^20 ids the
sign bit of an id is set, and after 2^21 the counter has left the word and
the ids start again from the first.

A record beside the machine lists the ids that were given out, with their
slots, and the ids of the environments that were released. As long as fewer
than 2^20 ids have been made, and slots are not chosen by both CPUs at the
same time, ids are positive, name their slot and are never given out again,
and `envid2env` rejects the id of a released environment.
-/

namespace MosSmp

open Lib Function Kern CreatePc BitVec Creation List Nat

/-- The ids that runs of the machine give out and release, latest first. -/
structure IdLog where
  given : List (EnvIdx × Word)
  released : List Word

/-- `mkenvid` gives out an id; `env_free` releases the one in its slot. -/
def IdLog.note (s : Creation) (l : CreateLabel) (log : IdLog) : IdLog :=
  match s.pc l.cpu with
  | .making .mkenvid e _ =>
    { log with given := (e, mkenvid (s.kern.mkenvidI + 1) e) :: log.given }
  | .releasing .listInsert e =>
    { log with released := (s.kern.envs e).envId :: log.released }
  | _ => log

/-- Creation and release, with a record of the ids. -/
def loggedCreation : Machine (Creation × IdLog) CreateLabel :=
  creation.record ⟨[], []⟩ IdLog.note

/-- Ids identify incarnations. -/
structure Identified (p : Creation × IdLog) : Prop where
  positive : ∀ x ∈ p.2.given, 0 < x.2.toInt
  slot : ∀ x ∈ p.2.given, envx x.2 = x.1
  /-- No id is given out twice. -/
  fresh : (p.2.given.map Prod.snd).Nodup
  /-- `sys_exofork` returns ids that were given out. -/
  returned : ∀ m ∈ p.1.made, (m.slot, m.envId) ∈ p.2.given
  /-- The id of a released environment is rejected. -/
  stale : ∀ id ∈ p.2.released, ∀ cur checkperm,
    p.1.kern.envid2env cur id checkperm = .error .badEnv

/-- The CPU is about to call `mkenvid`. -/
def CreatePc.naming : CreatePc → Bool
  | .making .mkenvid _ _ => true
  | _ => false

namespace Creation

/-- Slots are not chosen at the same time, and `mkenvid` has been called less
than 2^20 - 1 times before. -/
def FewIds (s : Creation) (l : CreateLabel) : Prop :=
  s.CreatesAlone l ∧ ((s.pc l.cpu).naming = true → s.kern.mkenvidI.toNat + 1 < 2 ^ 20)

instance decidableFewIds (s : Creation) (l : CreateLabel) : Decidable (s.FewIds l) :=
  instDecidableAnd

end Creation

namespace Kern

variable {i j : Word} {e f : EnvIdx}

theorem toNat_mkenvid (i : Word) (e : EnvIdx) :
    (mkenvid i e).toNat = i.toNat % 2 ^ 21 * 2 ^ 11 + e.val := by
  have he : e.val < 1024 := e.isLt
  have hhigh : i.toNat <<< 11 % 2 ^ 32 = (i.toNat % 2 ^ 21) <<< 11 := by
    omega
  unfold mkenvid
  rw [toNat_or, toNat_shiftLeft, toNat_ofNat, hhigh, Nat.mod_eq_of_lt (by omega : e.val < 2 ^ 32),
    ← Nat.shiftLeft_add_eq_or_of_lt (by omega : e.val < 2 ^ 11), Nat.shiftLeft_eq]

theorem envx_mkenvid (i : Word) (e : EnvIdx) : envx (mkenvid i e) = e := by
  have he : e.val < 1024 := e.isLt
  apply Fin.ext
  show (mkenvid i e &&& 1023#32).toNat = e.val
  rw [toNat_and, toNat_mkenvid]
  show _ &&& (2 ^ 10 - 1) = _
  rw [and_two_pow_sub_one_eq_mod]
  omega

theorem mkenvidI_freeSection (k : Kern) (e : EnvIdx) : (k.freeSection e).mkenvidI = k.mkenvidI := by
  unfold freeSection
  split <;> rfl

/-- An id is positive while the counter fits in twenty bits. -/
theorem toInt_mkenvid (hpos : 0 < i.toNat) (hlt : i.toNat < 2 ^ 20) : 0 < (mkenvid i e).toInt := by
  have he : e.val < 1024 := e.isLt
  have hid := toNat_mkenvid i e
  rw [toInt_eq_toNat_of_lt (by omega)]
  omega

end Kern

/-- The slot whose environment has an id: it got one and has not been handed
over, or it is being released. -/
def CreatePc.holdsId : CreatePc → Option EnvIdx
  | .making .listRemove e _ | .making .install e _ | .releasing _ e => some e
  | _ => none

namespace Creation

variable {s s' : Creation} {log : IdLog} {c : CpuId} {e : EnvIdx} {id : Word}

/-- Nothing in the slot can become an environment under the id it has. -/
def Vacant (s : Creation) (e : EnvIdx) : Prop :=
  s.kern.status e = .free ∧ ∀ c, (s.pc c).idSlot ≠ some e

/-- The invariant behind `Identified`: ids come from values that the counter
has had, in order. -/
structure IdInv (s : Creation) (log : IdLog) : Prop where
  bound : s.kern.mkenvidI.toNat < 2 ^ 20
  given : ∀ x ∈ log.given, ∃ i : Word, 0 < i.toNat ∧ i.toNat ≤ s.kern.mkenvidI.toNat ∧
    x.2 = mkenvid i x.1
  fresh : (log.given.map Prod.snd).Nodup
  named : ∀ e, s.Uses holdsId e → (e, (s.kern.envs e).envId) ∈ log.given
  released : ∀ id ∈ log.released, ∃ e, (e, id) ∈ log.given ∧
    ((s.kern.envs e).envId = id → s.Vacant e)

theorem Kern.mkenvid_counter {i j : Word} {e f : EnvIdx} (hi : i.toNat < 2 ^ 20)
    (hj : j.toNat < 2 ^ 20) (h : Kern.mkenvid i e = Kern.mkenvid j f) : i = j := by
  have he : e.val < 1024 := e.isLt
  have hf : f.val < 1024 := f.isLt
  have hnat := congrArg BitVec.toNat h
  rw [toNat_mkenvid, toNat_mkenvid] at hnat
  apply eq_of_toNat_eq
  omega

/-- A slot stays vacant when CPU `c` moves to a position without an id. -/
theorem Vacant.move {pc : CreatePc} (h : s.Vacant e) (hs' : s'.pc = update s.pc c pc)
    (hst : s'.kern.status e = s.kern.status e)
    (hpc : pc.idSlot = some e → (s.pc c).idSlot = some e) : s'.Vacant e := by
  refine ⟨hst.trans h.1, fun d hd => ?_⟩
  rw [hs'] at hd
  rcases update_some (f := idSlot) hd with ⟨_, hnew⟩ | ⟨_, hold⟩
  · exact h.2 c (hpc hnew)
  · exact h.2 d hold

section

variable (hinv : s.IdInv log)
include hinv

theorem IdInv.identified (hexact : ∀ m ∈ s.made, m = s.kern.made m.slot) : Identified (s, log) := by
  have hpos : ∀ x ∈ log.given, 0 < x.2.toInt ∧ envx x.2 = x.1 := by
    intro x hx
    obtain ⟨i, hi, hle, hid⟩ := hinv.given x hx
    rw [hid]
    exact ⟨toInt_mkenvid hi (lt_of_le_of_lt hle hinv.bound), envx_mkenvid i x.1⟩
  refine ⟨fun x hx => (hpos x hx).1, fun x hx => (hpos x hx).2, hinv.fresh, ?_, ?_⟩
  · intro m hm
    have hslot : (m.slot, m.envId) = (m.slot, (s.kern.envs m.slot).envId) := by
      conv_lhs => rw [hexact m hm]
      rfl
    rw [hslot]
    exact hinv.named _ (.inl (mem_map_of_mem hm))
  · intro id hid cur checkperm
    obtain ⟨e, he, hvac⟩ := hinv.released id hid
    obtain ⟨hlt, hslot⟩ := hpos _ he
    have hne : id ≠ 0 := by
      rintro rfl
      simp at hlt
    have hbad : (s.kern.envs e).envStatus = .free ∨ (s.kern.envs e).envId ≠ id := by
      by_cases hsame : (s.kern.envs e).envId = id
      · exact .inl (hvac hsame).1
      · exact .inr hsame
    unfold envid2env
    simp only [hslot] at hbad ⊢
    rw [if_neg hne, if_pos hbad]

/-- A step that leaves the ids alone, gives no slot an id and hands over only
slots that have one. -/
theorem IdInv.keep (hcount : s'.kern.mkenvidI = s.kern.mkenvidI)
    (hids : ∀ e, (s'.kern.envs e).envId = (s.kern.envs e).envId)
    (hnamed : ∀ e, s'.Uses holdsId e → s.Uses holdsId e) (hvac : ∀ e, s.Vacant e → s'.Vacant e) :
    s'.IdInv log where
  bound := hcount ▸ hinv.bound
  given := by
    rw [hcount]
    exact hinv.given
  fresh := hinv.fresh
  named := fun e hu => by
    rw [hids e]
    exact hinv.named e (hnamed e hu)
  released := fun id hid => by
    obtain ⟨e, he, h⟩ := hinv.released id hid
    exact ⟨e, he, fun hsame => hvac e (h ((hids e).symm.trans hsame))⟩

/-- The steps other than `mkenvid` and the `LIST_INSERT_HEAD` of
`env_free`. -/
theorem IdInv.quiet_step (h : CreateCase s c s') (hname : (s.pc c).naming = false)
    (hins : ∀ e, s.pc c ≠ .releasing .listInsert e) : s'.IdInv log := by
  -- CPU `c` moves on; ids and statuses stay as they are.
  have hmove : ∀ {pc : CreatePc}, s'.pc = update s.pc c pc → s'.kern.mkenvidI = s.kern.mkenvidI →
      (∀ e, (s'.kern.envs e).envId = (s.kern.envs e).envId) →
      (∀ e, (s'.kern.envs e).envStatus = (s.kern.envs e).envStatus) →
      (∀ a ∈ s'.made.map Made.slot, a ∈ s.made.map Made.slot) →
      (∀ a, pc.holdsId = some a → a ∈ s.made.map Made.slot ∨ (s.pc c).holdsId = some a) →
      (∀ a, pc.idSlot = some a → (s.pc c).idSlot = some a) → s'.IdInv log := by
    intro pc hs' hcount hids hst hmade hholds hslot
    exact hinv.keep hcount hids (fun e hu => hu.back hs' (fun a ha => .inl (hmade a ha)) hholds)
      (fun e hv => hv.move hs' (hst e) (hslot e))
  cases h with
  | same => exact hinv
  | fails | readHead =>
    exact hmove rfl rfl (fun _ => rfl) (fun _ => rfl) (fun _ => id)
      (by simp [holdsId]) (by simp [idSlot])
  | setupVm | asidAlloc =>
    exact hmove rfl rfl (fun _ => field_updEnv Env.envId rfl fun _ => rfl)
      (fun _ => field_updEnv Env.envStatus rfl fun _ => rfl) (fun _ => id)
      (by simp [holdsId]) (by simp [idSlot])
  | mkenvid hpc =>
    rw [hpc] at hname
    cases hname
  | listRemove hpc =>
    exact hmove rfl rfl (fun _ => field_updEnv Env.envId rfl fun _ => rfl)
      (fun _ => field_updEnv Env.envStatus rfl fun _ => rfl) (fun _ => id)
      (fun a h => .inr (by rw [hpc]; exact h)) (fun a h => by rw [hpc]; exact h)
  | callFree hpc hmade =>
    refine hmove rfl rfl (fun _ => rfl) (fun _ => rfl) (fun _ => made_filter) (fun a h => ?_)
      (by simp [idSlot])
    cases h
    exact .inl hmade
  | decref hpc | asidFree hpc =>
    exact hmove rfl rfl (fun _ => rfl) (fun _ => rfl) (fun _ => id)
      (fun a h => .inr (by rw [hpc]; exact h)) (by simp [idSlot])
  | @install f caller hpc =>
    have hid : (s.pc c).idSlot = some f := by rw [hpc]; rfl
    refine hinv.keep rfl (fun _ => field_updEnv Env.envId rfl fun _ => rfl)
      (fun e hu => hu.back rfl (fun a ha => made_cons ha (by rw [hpc]; rfl)) (by simp [holdsId]))
      (fun e hv => hv.move rfl ?_ (by simp [idSlot]))
    have hne : e ≠ f := by
      rintro rfl
      exact hv.2 c hid
    exact congrArg Env.envStatus (envs_of_ne rfl hne)
  | listInsert hpc => exact absurd hpc (hins _)

/-- `mkenvid` gives slot `e` the id of the next value of the counter. -/
theorem IdInv.mkenvid_step {caller : Caller} (hpc : s.pc c = .making .mkenvid e caller)
    (hlt : s.kern.mkenvidI.toNat + 1 < 2 ^ 20) :
    IdInv ((s.setKern (s.kern.setId e)).goto c (.making .listRemove e caller))
      { log with given := (e, mkenvid (s.kern.mkenvidI + 1) e) :: log.given } := by
  have hnext : (s.kern.mkenvidI + 1).toNat = s.kern.mkenvidI.toNat + 1 := by
    rw [toNat_add_of_lt]
    · rfl
    · simp
      omega
  have hself : ((s.kern.setId e).envs e).envId = mkenvid (s.kern.mkenvidI + 1) e := by
    simp [setId, idEnv]
  have hother : ∀ f, f ≠ e → (s.kern.setId e).envs f = s.kern.envs f :=
    fun f hf => envs_of_ne rfl hf
  have hold : ∀ x ∈ log.given, x.2 ≠ mkenvid (s.kern.mkenvidI + 1) e := by
    intro x hx heq
    obtain ⟨i, _, hle, hid⟩ := hinv.given x hx
    have hi := Kern.mkenvid_counter (by omega) (by omega) (hid.symm.trans heq)
    rw [hi, hnext] at hle
    omega
  refine ⟨?_, ?_, ?_, ?_, ?_⟩
  · show (s.kern.mkenvidI + 1).toNat < 2 ^ 20
    omega
  · intro x hx
    show ∃ i : Word, 0 < i.toNat ∧ i.toNat ≤ (s.kern.mkenvidI + 1).toNat ∧ _
    rcases mem_cons.mp hx with rfl | hx
    · exact ⟨s.kern.mkenvidI + 1, by omega, le_refl _, rfl⟩
    · obtain ⟨i, hpos, hle, hid⟩ := hinv.given x hx
      exact ⟨i, hpos, by omega, hid⟩
  · refine nodup_cons.mpr ⟨fun hin => ?_, hinv.fresh⟩
    obtain ⟨x, hx, hid⟩ := mem_map.mp hin
    exact hold x hx hid
  · intro f hu
    show (f, ((s.kern.setId e).envs f).envId) ∈ _
    by_cases hf : f = e
    · rw [hf, hself]
      exact mem_cons_self
    · rw [hother f hf]
      have hback : f = e ∨ s.Uses holdsId f := hu.back_or rfl rfl fun a ha => by
        cases ha
        rfl
      exact mem_cons_of_mem _ (hinv.named f (hback.resolve_left hf))
  · intro id hid
    obtain ⟨f, hf, hvac⟩ := hinv.released id hid
    refine ⟨f, mem_cons_of_mem _ hf, fun hsame => ?_⟩
    have hne : f ≠ e := by
      rintro rfl
      exact hold _ hf (hsame.symm.trans hself)
    refine (hvac ?_).move rfl ?_ fun h => ?_
    · rw [← hsame]
      exact (congrArg Env.envId (hother f hne)).symm
    · exact congrArg Env.envStatus (hother f hne)
    · cases h
      exact absurd rfl hne

/-- `env_free` releases the id of slot `e`. -/
theorem IdInv.listInsert_step (hcreate : s.CreateInv) (hpc : s.pc c = .releasing .listInsert e) :
    IdInv ((s.setKern (s.kern.freeSection e)).goto c .idle)
      { log with released := (s.kern.envs e).envId :: log.released } := by
  have hids : ∀ f, ((s.kern.freeSection e).envs f).envId = (s.kern.envs f).envId :=
    fun f => field_updEnv Env.envId (envs_freeSection ..) fun _ => rfl
  have hst : (s.kern.freeSection e).status = update s.kern.status e .free :=
    status_of_envs (envs_freeSection ..) rfl
  have hcount : (s.kern.freeSection e).mkenvidI = s.kern.mkenvidI := mkenvidI_freeSection ..
  have hplace : (s.pc c).place = some (.releasing, e) := by rw [hpc]; rfl
  have hstatus : ∀ f, (s.kern.status f = .free ∨ f = e) →
      (s.kern.freeSection e).status f = .free := by
    intro f hf
    rw [hst, update_apply]
    split
    · rfl
    · next hne => exact hf.resolve_right hne
  have hkeep : IdInv ((s.setKern (s.kern.freeSection e)).goto c .idle) log := by
    refine hinv.keep hcount hids
      (fun f hu => hu.back rfl (fun _ h => .inl h) (by simp [holdsId])) ?_
    intro f hv
    refine ⟨hstatus f (.inl hv.1), fun d hd => ?_⟩
    rcases update_some (f := idSlot) hd with ⟨_, hnew⟩ | ⟨_, hold⟩
    · cases hnew
    · exact hv.2 d hold
  refine ⟨hkeep.bound, hkeep.given, hkeep.fresh, hkeep.named, fun id hid => ?_⟩
  rcases mem_cons.mp hid with rfl | hid
  · have hholds : (s.pc c).holdsId = some e := by rw [hpc]; rfl
    refine ⟨e, hinv.named e (.inr ⟨c, hholds⟩), fun _ => ⟨hstatus e (.inr rfl), ?_⟩⟩
    intro d hd
    rcases update_some (f := idSlot) hd with ⟨_, hnew⟩ | ⟨hne, hold⟩
    · cases hnew
    · obtain ⟨_, hside⟩ := place_of_idSlot hold
      exact hne (hcreate.placed.alone d c e _ _ hside hplace)
  · exact hkeep.released id hid

end

variable {l : CreateLabel}

theorem step_making {stage : MakeStage} {caller : Caller}
    (hpc : s.pc l.cpu = .making stage e caller) (h : s.step l = some s') :
    s' = s.make l.cpu e caller stage := by
  cases hact : l.act <;> simp only [step, hpc, hact, Option.some.injEq, reduceCtorEq] at h
  exact h.symm

theorem step_releasing {stage : FreeStage} (hpc : s.pc l.cpu = .releasing stage e)
    (h : s.step l = some s') : s' = s.release l.cpu e stage := by
  cases hact : l.act <;> simp only [step, hpc, hact, Option.some.injEq, reduceCtorEq] at h
  exact h.symm

theorem IdInv.step (hinv : s.IdInv log) (hcreate : s.CreateInv) (hok : s.FewIds l)
    (h : s.step l = some s') : s'.IdInv (IdLog.note s l log) := by
  have hcase := step_cases hok.1 h
  cases hpc : s.pc l.cpu with
  | idle =>
    have hnote : IdLog.note s l log = log := by simp only [IdLog.note, hpc]
    rw [hnote]
    exact hinv.quiet_step hcase (by rw [hpc]; rfl) (by simp [hpc])
  | making stage e =>
    cases stage with
    | mkenvid =>
      have hnote : IdLog.note s l log =
          { log with given := (e, mkenvid (s.kern.mkenvidI + 1) e) :: log.given } := by
        simp only [IdLog.note, hpc]
      rw [hnote, step_making hpc h]
      exact hinv.mkenvid_step hpc (hok.2 (by rw [hpc]; rfl))
    | _ =>
      have hnote : IdLog.note s l log = log := by simp only [IdLog.note, hpc]
      rw [hnote]
      exact hinv.quiet_step hcase (by rw [hpc]; rfl) (by simp [hpc])
  | releasing stage e =>
    cases stage with
    | listInsert =>
      have hnote : IdLog.note s l log =
          { log with released := (s.kern.envs e).envId :: log.released } := by
        simp only [IdLog.note, hpc]
      rw [hnote, step_releasing hpc h]
      exact hinv.listInsert_step hcreate hpc
    | _ =>
      have hnote : IdLog.note s l log = log := by simp only [IdLog.note, hpc]
      rw [hnote]
      exact hinv.quiet_step hcase (by rw [hpc]; rfl) (by simp [hpc])

theorem IdInv.start (pages : List Word) : IdInv (start pages) ⟨[], []⟩ := by
  refine ⟨Nat.two_pow_pos 20, ?_, List.nodup_nil, ?_, ?_⟩
  · intro x hx
    cases hx
  · rintro _ (hin | ⟨_, hc⟩)
    · cases hin
    · cases hc
  · intro id hid
    cases hid

end Creation

/-- In every run in which slots are not chosen at the same time and fewer than
2^20 ids are made, ids are positive, name their slot and are never given out
again, and the ids of released environments are rejected. -/
theorem identified_of_fewIds {p : Creation × IdLog}
    (hrun : loggedCreation.ReachableUnder (fun q l => q.1.FewIds l) p) : Identified p := by
  have hinv : p.1.CreateInv ∧ p.1.IdInv p.2 := by
    apply hrun.invariant
    · rintro ⟨s, log⟩ ⟨⟨pages, hpages, rfl⟩, rfl⟩
      exact ⟨Creation.CreateInv.start hpages, Creation.IdInv.start pages⟩
    · rintro ⟨s, log⟩ l ⟨_, _⟩ _ ⟨hcreate, hids⟩ hok hstep
      obtain ⟨hs', rfl⟩ := Machine.record_step hstep
      exact ⟨hcreate.step (step_cases hok.1 hs'), hids.step hcreate hok hs'⟩
  exact hinv.2.identified hinv.1.exact

/-- An environment is made, released, and another one is made in its slot. -/
theorem identified_madeTwice : ∃ p, loggedCreation.ReachableUnder (fun q l => q.1.FewIds l) p ∧
      (p.2.given = [(0, 4096), (0, 2048)] ∧ p.2.released = [2048]) ∧ Identified p := by
  have hstart : loggedCreation.ReachableUnder (fun q l => q.1.FewIds l)
      (start [0x80500000], ⟨[], []⟩) :=
    .init ⟨⟨[0x80500000], nodup_singleton _, rfl⟩, rfl⟩
  obtain ⟨p, hp, hlog⟩ := Machine.exists_reachableUnder_of_exec (P := fun p : Creation × IdLog =>
      p.2.given = [(0, 4096), (0, 2048)] ∧ p.2.released = [2048])
    ([⟨0, .exofork .zero⟩] ++ replicate 5 ⟨0, .run⟩ ++ [⟨0, .free 0⟩] ++
      replicate 3 ⟨0, .run⟩ ++ [⟨0, .exofork .zero⟩] ++ replicate 5 ⟨0, .run⟩)
    hstart (by decide +kernel)
  exact ⟨p, hp, hlog, identified_of_fewIds hp⟩

/-- The labels of one `sys_exofork` on CPU 0. -/
def makeOne : List CreateLabel := ⟨0, .exofork .zero⟩ :: replicate 5 ⟨0, .run⟩

/-- The labels of one `env_free` of slot 0 on CPU 0. -/
def releaseOne : List CreateLabel := ⟨0, .free 0⟩ :: replicate 3 ⟨0, .run⟩

/-- Nothing runs, every slot is free, and `k` environments have been in
slot 0. -/
structure Ready (k : Nat) (p : Creation × IdLog) : Prop where
  pc : p.1.pc = fun _ => .idle
  pages : ∃ pgdir, p.1.pages = [pgdir]
  made : p.1.made = []
  freeList : ∃ rest, p.1.kern.envFreeList.Rep (0 :: rest)
  asids : p.1.kern.asidBitmap = fun _ => false
  counter : p.1.kern.mkenvidI = BitVec.ofNat 32 k
  past : ∀ j, 0 < j → j ≤ k → (0, Kern.mkenvid (BitVec.ofNat 32 j) 0) ∈ p.2.given ∧
    Kern.mkenvid (BitVec.ofNat 32 j) 0 ∈ p.2.released

theorem asidAlloc_empty :
    asidAlloc (fun _ => false) = some (0, update (fun _ => false) 0 true) := rfl

namespace Kern

/-- What `sys_exofork` makes of slot 0 and ASID 0. -/
def withFirst (k : Kern) (pgdir : Word) : Kern :=
  (((((k.updEnv 0 (resetEnv pgdir)).setAsid 0 0
    (update k.asidBitmap 0 true)).setId 0).unlink 0 0).installChild 0 .zero)

/-- What `env_free` makes of slot 0. -/
def withoutFirst (k : Kern) : Kern :=
  (k.asidFree (k.envs 0).envAsid).freeSection 0

end Kern

theorem update_idle (c : CpuId) : update (fun _ => idle) c idle = fun _ => idle :=
  update_eq_self c _

theorem exec_makeOne {k : Kern} {pgdir : Word} {log : IdLog}
    (hfirst : k.envFreeList.first = some 0) (hasids : k.asidBitmap = fun _ => false) :
    loggedCreation.exec (fun q l => q.1.CreatesAlone l) (⟨k, [pgdir], fun _ => .idle, []⟩, log)
      makeOne = some (⟨k.withFirst pgdir, [], fun _ => .idle, [(k.withFirst pgdir).made 0]⟩,
        { log with given := (0, mkenvid (k.mkenvidI + 1) 0) :: log.given }) := by
  have hasid : asidAlloc (k.updEnv 0 (resetEnv pgdir)).asidBitmap =
      some (0, update k.asidBitmap 0 true) := by
    show asidAlloc k.asidBitmap = _
    rw [hasids]
    exact asidAlloc_empty
  simp [makeOne, Machine.exec, loggedCreation, Machine.record, creation, step,
    readHead, hfirst, Creation.CreatesAlone, make, IdLog.note, hasid]
  refine ⟨rfl, ?_, rfl⟩
  simp only [goto, setKern, setPages, setMade, update_idem, update_idle]
  rfl

theorem exec_releaseOne {k : Kern} {m : Made} {log : IdLog} (hslot : m.slot = 0)
    (hlive : k.status 0 ≠ .free) :
    loggedCreation.exec (fun q l => q.1.CreatesAlone l) (⟨k, [], fun _ => .idle, [m]⟩, log)
      releaseOne = some (⟨k.withoutFirst, [(k.envs 0).envPgdir], fun _ => .idle, []⟩,
        { log with released := (k.envs 0).envId :: log.released }) := by
  simp [releaseOne, Machine.exec, loggedCreation, Machine.record, creation, Creation.step,
    Creation.callFree, hlive, hslot, Creation.CreatesAlone, Creation.release, IdLog.note]
  simp only [Creation.goto, Creation.setKern, Creation.setPages, Creation.setMade,
    update_idem, update_idle]
  rfl

/-- Another environment has been in slot 0. -/
theorem Ready.next {k : Nat} {p : Creation × IdLog} (h : Ready k p) :
    ∃ q r, loggedCreation.exec (fun q l => q.1.CreatesAlone l) p makeOne = some q ∧
      loggedCreation.exec (fun q l => q.1.CreatesAlone l) q releaseOne = some r ∧
      q.2 = { p.2 with given := (0, Kern.mkenvid (BitVec.ofNat 32 (k + 1)) 0) :: p.2.given } ∧
      q.1.kern.status 0 ≠ .free ∧
      (q.1.kern.envs 0).envId = Kern.mkenvid (BitVec.ofNat 32 (k + 1)) 0 ∧ Ready (k + 1) r := by
  obtain ⟨⟨kern, _, _, _⟩, _⟩ := p
  obtain ⟨hpc, ⟨pgdir, hpages⟩, hmade, ⟨rest, hlist⟩, hasids, hcount, hpast⟩ := h
  subst hpc hpages hmade
  have hnext : kern.mkenvidI + 1 = BitVec.ofNat 32 (k + 1) := by
    rw [hcount, BitVec.ofNat_add]
    rfl
  have hid : ((kern.withFirst pgdir).envs 0).envId = Kern.mkenvid (BitVec.ofNat 32 (k + 1)) 0 := by
    rw [← hnext]
    simp [Kern.withFirst, Kern.installChild, Kern.unlink, Kern.setId, Kern.setAsid, Kern.childEnv,
      Kern.parentEnv, Kern.idEnv]
    rfl
  have hasid : ((kern.withFirst pgdir).envs 0).envAsid = 0 := by
    simp [Kern.withFirst, Kern.installChild, Kern.unlink, Kern.setId, Kern.setAsid, Kern.childEnv,
      Kern.parentEnv, Kern.idEnv, Kern.asidEnv]
  have hlive : (kern.withFirst pgdir).status 0 ≠ .free := by
    simp [Kern.withFirst, Kern.status, Kern.installChild, Kern.childEnv]
  refine ⟨_, _, exec_makeOne hlist.first_eq hasids, exec_releaseOne rfl hlive, ?_, hlive, hid, ?_⟩
  · rw [hnext]
  · refine ⟨rfl, ⟨_, rfl⟩, rfl, ⟨rest, ?_⟩, ?_, ?_, ?_⟩
    · show (Kern.withoutFirst _).envFreeList.Rep _
      unfold Kern.withoutFirst
      rw [Kern.envFreeList_freeSection]
      have hrest := hlist.remove mem_cons_self
      rw [erase_cons_head] at hrest
      exact hrest.insertHead (nodup_cons.mp hlist.1).1
    · show (Kern.withoutFirst _).asidBitmap = _
      unfold Kern.withoutFirst
      rw [Kern.asidBitmap_freeSection, hasid]
      show update (update kern.asidBitmap 0 true) 0 false = _
      rw [update_idem, hasids]
      exact update_eq_self 0 _
    · show (Kern.withoutFirst _).mkenvidI = _
      unfold Kern.withoutFirst
      rw [Kern.mkenvidI_freeSection]
      exact hnext
    · intro j hpos hle
      rcases lt_or_ge k j with _ | hold
      · obtain rfl : j = k + 1 := by omega
        rw [hid, hnext]
        exact ⟨mem_cons_self, mem_cons_self⟩
      · obtain ⟨hgiven, hreleased⟩ := hpast j hpos hold
        exact ⟨mem_cons_of_mem _ hgiven, mem_cons_of_mem _ hreleased⟩

theorem exists_ready (k : Nat) : ∃ p,
    loggedCreation.ReachableUnder (fun q l => q.1.CreatesAlone l) p ∧ Ready k p := by
  induction k with
  | zero =>
    refine ⟨(Creation.start [0x80500000], ⟨[], []⟩),
      .init ⟨⟨[0x80500000], nodup_singleton _, rfl⟩, rfl⟩, ?_⟩
    refine ⟨rfl, ⟨_, rfl⟩, rfl, ⟨(finRange 1023).map Fin.succ, ?_⟩, rfl, rfl, ?_⟩
    · rw [← finRange_succ]
      exact Kern.rep_envInit
    · intro j hpos hle
      omega
  | succ k ih =>
    obtain ⟨p, hp, hready⟩ := ih
    obtain ⟨q, r, hq, hr, _, _, _, hnext⟩ := hready.next
    have hmade := Machine.reachableUnder_of_exec _ hp hq
    exact ⟨r, Machine.reachableUnder_of_exec _ hmade hr, hnext⟩

/-- After 2^21 + 1 environments have been made one after the other, there have
been an id 0 and an id with the sign bit set, the first id has been given out
a second time, and `envid2env` accepts it although its first environment has
been released. -/
theorem idRepeats_reachable : ∃ p, loggedCreation.ReachableUnder (fun q l => q.1.CreatesAlone l) p ∧
      ((0, 0x80000000) ∈ p.2.given ∧ (0, 0) ∈ p.2.given ∧
        ¬ (p.2.given.map Prod.snd).Nodup ∧ 2048 ∈ p.2.released ∧
        p.1.kern.envid2env 0 2048 false = .ok 0) ∧ ¬ Identified p := by
  obtain ⟨p, hp, hready⟩ := exists_ready (2 ^ 21)
  obtain ⟨q, _, hq, _, hlog, hlive, hid, _⟩ := hready.next
  have hagain : Kern.mkenvid (BitVec.ofNat 32 (2 ^ 21 + 1)) 0 = 2048 := by decide
  have hneg := (hready.past (2 ^ 20) (by decide) (by decide)).1
  have hzero := (hready.past (2 ^ 21) (by decide) (by decide)).1
  have hone := hready.past 1 (by decide) (by decide)
  rw [hagain] at hlog hid
  have hdup : ¬ (q.2.given.map Prod.snd).Nodup := by
    rw [hlog]
    exact fun h => (nodup_cons.mp h).1 (mem_map_of_mem hone.1)
  refine ⟨q, Machine.reachableUnder_of_exec _ hp hq, ⟨?_, ?_, hdup, ?_, ?_⟩, fun h => hdup h.fresh⟩
  · rw [hlog]
    exact mem_cons_of_mem _ hneg
  · rw [hlog]
    exact mem_cons_of_mem _ hzero
  · rw [hlog]
    exact hone.2
  · have hslot : envx 2048 = 0 := by decide
    have hgood : ¬ ((q.1.kern.envs 0).envStatus = .free ∨ (q.1.kern.envs 0).envId ≠ 2048) :=
      not_or.mpr ⟨hlive, not_not.mpr hid⟩
    unfold Kern.envid2env
    rw [if_neg (by decide), hslot]
    dsimp only
    rw [if_neg hgood, if_neg fun h => Bool.false_ne_true h.1]

end MosSmp
