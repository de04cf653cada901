import MosSmp.Calls.Envs

/-!
What a failed `env_alloc` leaves behind. The directory is allocated before the
ASID, and nothing gives it back when there is no ASID. With 1024 environments
and 256 ASIDs a program can get there by `sys_exofork` alone, and each further
call then costs a page.
-/

namespace MosSmp

open Lib Relation List

theorem asidAlloc_eq_none {bitmap : Fin NASID → Bool} :
    asidAlloc bitmap = none ↔ ∀ i, bitmap i = true := by
  unfold asidAlloc
  cases hfind : (finRange NASID).find? (fun i => !bitmap i) with
  | none =>
    rw [find?_eq_none] at hfind
    exact iff_of_true rfl (fun i => by simpa using hfind i (mem_finRange i))
  | some i =>
    have hi := find?_some hfind
    exact iff_of_false (by simp) (fun h => by simp [h i] at hi)

namespace Kern

variable {k : Kern} {e : EnvIdx} (pgdir parentId : Word)

theorem envAlloc_noAsid (hfirst : k.envFreeList.first = some e)
    (hnone : ∀ i, k.asidBitmap i = true) :
    k.envAlloc (some pgdir) parentId = (.error .noFreeEnv, k.updEnv e (resetEnv pgdir)) := by
  have hasid : asidAlloc (k.updEnv e (resetEnv pgdir)).asidBitmap = none :=
    asidAlloc_eq_none.mpr hnone
  unfold envAlloc
  rw [hfirst]
  dsimp only
  rw [hasid]

theorem envAlloc_asid {i : Fin NASID} (hfirst : k.envFreeList.first = some e)
    (hi : k.asidBitmap i = false) : ∃ j k', k.envAlloc (some pgdir) parentId = (.ok e, k') ∧
      k.asidBitmap j = false ∧ k'.asidBitmap = Function.update k.asidBitmap j true ∧
      k'.envFreeList = k.envFreeList.remove e := by
  cases hasid : asidAlloc k.asidBitmap with
  | none =>
    rw [asidAlloc_eq_none.mp hasid i] at hi
    cases hi
  | some found =>
    obtain ⟨j, _⟩ := found
    obtain ⟨hj, hbitmap⟩ := asidAlloc_some hasid
    unfold envAlloc
    rw [hfirst]
    dsimp only
    rw [show (k.updEnv e (resetEnv pgdir)).asidBitmap = k.asidBitmap from rfl, hasid]
    exact ⟨j, _, rfl, hj, hbitmap, rfl⟩

end Kern

namespace MemSys

variable {n : Nat} {s t : MemSys n} {c : CpuId} {cur e : EnvIdx} {err : Err} {parentId : Word}

/-- `env_alloc` with the memory it works on. -/
def envAlloc (s : MemSys n) (parentId : Word) : Except Err EnvIdx × MemSys n :=
  match s.kern.envFreeList.first with
  | none => (.error .noFreeEnv, s)
  | some e =>
    match s.envSetupVm e with
    | (.error err, s) => (.error err, s)
    | (.ok _, s) =>
      let r := s.kern.envAlloc ((s.pgdir e).map (fun p => ULIM + page2pa p)) parentId
      (r.1, s.setKern r.2)

theorem kern_envSetupVm : (s.envSetupVm e).2.kern = s.kern := by
  unfold envSetupVm
  cases s.pm.pageAlloc <;> rfl

/-- `sys_exofork` after its call of `env_alloc`. -/
def afterAlloc (c : CpuId) (cur : EnvIdx) : Except Err EnvIdx × MemSys n → MemSys n
  | (.error err, t) => t.ret c err.code
  | (.ok e, t) =>
    (t.setKern (t.kern.updEnv e (fun x => { x with
      envTf := (t.kern.cpuData c).trapframe.setReg 2 0
      envStatus := .notRunnable
      envPri := (t.kern.envs cur).envPri }))).ret c (t.kern.envs e).envId

theorem sysExofork_eq :
    s.sysExofork c cur = afterAlloc c cur (s.envAlloc (s.kern.envs cur).envId) := by
  unfold envAlloc sysExofork
  cases s.kern.envFreeList.first with
  | none => rfl
  | some e =>
    have hkern := kern_envSetupVm (s := s) (e := e)
    dsimp only
    rcases hvm : s.envSetupVm e with ⟨_ | _, t⟩
    · rfl
    · rw [hvm] at hkern
      dsimp only at hkern ⊢
      unfold Kern.exofork
      rw [hkern]
      rcases s.kern.envAlloc ((t.pgdir e).map (fun p => ULIM + page2pa p))
        (s.kern.envs cur).envId with ⟨_ | e', k⟩
      · rfl
      · simp [afterAlloc, MemSys.setKern]

/-- What an operation has left as it was. -/
structure Untouched (s t : MemSys n) : Prop where
  pages : ∀ p, t.pm.Free p ↔ s.pm.Free p
  refs : t.pm.ppRef = s.pm.ppRef
  asids : t.kern.asidBitmap = s.kern.asidBitmap
  envFreeList : t.kern.envFreeList = s.kern.envFreeList
  live : t.kern.status = s.kern.status

theorem Untouched.refl (s : MemSys n) : Untouched s s := ⟨fun _ => Iff.rfl, rfl, rfl, rfl, rfl⟩

theorem Untouched.trans {u : MemSys n} (h : Untouched s t) (h' : Untouched t u) : Untouched s u :=
  ⟨fun p => (h'.pages p).trans (h.pages p), h'.refs.trans h.refs, h'.asids.trans h.asids,
    h'.envFreeList.trans h.envFreeList, h'.live.trans h.live⟩

theorem Untouched.ret (h : Untouched s t) (r : Word) : Untouched s (t.ret c r) :=
  ⟨h.pages, h.refs, h.asids, h.envFreeList, h.live⟩

/-- `env_alloc` does not find the ASIDs exhausted with a directory already
allocated. -/
def AsidLeft (s : MemSys n) : Prop :=
  (∃ i, s.kern.asidBitmap i = false) ∨ s.kern.envFreeList.first = none ∨
    s.pm.pageFreeList.first = none

/-- What `env_alloc` has done when it looks for an ASID: page `p` is the
directory of the slot `e`. -/
structure Prepared (s t : MemSys n) (e : EnvIdx) (p : Page n) : Prop where
  kern : t.kern = s.kern
  pages : t.pm.pageFreeList = s.pm.pageFreeList.remove p
  refs : t.pm.ppRef = Function.update s.pm.ppRef p (s.pm.ppRef p + 1)
  alloc : ∀ parentId, s.envAlloc parentId =
    ((s.kern.envAlloc (some (ULIM + page2pa p)) parentId).1,
      t.setKern (s.kern.envAlloc (some (ULIM + page2pa p)) parentId).2)

theorem prepared {p : Page n} (hfirst : s.kern.envFreeList.first = some e)
    (hpage : s.pm.pageFreeList.first = some p) : ∃ t, Prepared s t e p := by
  have halloc : s.pm.pageAlloc = .ok (p, { s.pm with
      pageFreeList := s.pm.pageFreeList.remove p
      mem := Function.update s.pm.mem p (fun _ => 0) }) := by
    unfold Pmap.pageAlloc
    rw [hpage]
  refine ⟨(s.envSetupVm e).2, kern_envSetupVm, ?_, ?_, fun parentId => ?_⟩
  · unfold envSetupVm
    rw [halloc]
    rfl
  · unfold envSetupVm
    rw [halloc]
    rfl
  · unfold envAlloc
    rw [hfirst]
    unfold envSetupVm
    rw [halloc]
    simp

theorem envAlloc_error_eq (hleft : s.AsidLeft) (h : s.envAlloc parentId = (.error err, t)) :
    t = s := by
  cases hfirst : s.kern.envFreeList.first with
  | none =>
    unfold envAlloc at h
    rw [hfirst] at h
    cases h
    rfl
  | some =>
    cases hpage : s.pm.pageFreeList.first with
    | none =>
      unfold envAlloc envSetupVm Pmap.pageAlloc at h
      rw [hfirst, hpage] at h
      cases h
      rfl
    | some p =>
      -- Only a missing ASID can fail now.
      obtain ⟨_, hprep⟩ := prepared hfirst hpage
      rw [hprep.alloc] at h
      obtain ⟨_, hi⟩ | hnone | hnone := hleft
      · obtain ⟨_, _, halloc, _⟩ := Kern.envAlloc_asid (ULIM + page2pa p) parentId hfirst hi
        rw [halloc] at h
        cases h
      · rw [hfirst] at hnone
        cases hnone
      · rw [hpage] at hnone
        cases hnone

/-- A call of `sys_exofork` that fails. -/
def FailedFork (s t : MemSys n) : Prop :=
  ∃ c cur err s', s.envAlloc (s.kern.envs cur).envId = (.error err, s') ∧ t = s.sysExofork c cur

theorem FailedFork.untouched (h : FailedFork s t) (hleft : s.AsidLeft) :
    t.AsidLeft ∧ Untouched s t := by
  obtain ⟨_, _, err, _, halloc, rfl⟩ := h
  rw [sysExofork_eq, halloc]
  obtain rfl := envAlloc_error_eq hleft halloc
  exact ⟨hleft, (Untouched.refl _).ret err.code⟩

/-- With every ASID taken, `env_alloc` fails with a directory already allocated. -/
theorem envAlloc_touched (hleft : ¬ s.AsidLeft) (parentId : Word) :
    ∃ t, s.envAlloc parentId = (.error .noFreeEnv, t) ∧ ¬ Untouched s t := by
  simp only [AsidLeft, not_or, not_exists, Bool.not_eq_false] at hleft
  obtain ⟨hnone, hfirst, hpage⟩ := hleft
  obtain ⟨e, hfirst⟩ := Option.ne_none_iff_exists'.mp hfirst
  obtain ⟨p, hpage⟩ := Option.ne_none_iff_exists'.mp hpage
  obtain ⟨t, hprep⟩ := prepared hfirst hpage
  have halloc := hprep.alloc parentId
  rw [Kern.envAlloc_noAsid _ _ hfirst hnone] at halloc
  refine ⟨_, halloc, fun huntouched => ?_⟩
  have hrefs := congrFun (hprep.refs.symm.trans huntouched.refs) p
  rw [Function.update_self] at hrefs
  exact absurd hrefs (by simp)

/-- Exactly while an ASID is left, a failed `env_alloc` leaves no trace, and neither
does any number of failed calls of `sys_exofork`. -/
theorem failedForks_untouched (s : MemSys n) :
    ((∀ parentId err t, s.envAlloc parentId = (.error err, t) → Untouched s t) ∧
      ∀ t, ReflTransGen FailedFork s t → Untouched s t) ↔ s.AsidLeft := by
  constructor
  · rintro ⟨hfail, _⟩
    by_contra hleft
    obtain ⟨t, halloc, htouched⟩ := envAlloc_touched hleft 0
    exact htouched (hfail _ _ t halloc)
  intro hleft
  refine ⟨fun parentId err t halloc => ?_, fun t hforks => ?_⟩
  · rw [envAlloc_error_eq hleft halloc]
    exact .refl s
  · have hboth : t.AsidLeft ∧ Untouched s t := by
      induction hforks with
      | refl => exact ⟨hleft, .refl s⟩
      | tail _ hfork ih =>
        obtain ⟨hleft', huntouched⟩ := hfork.untouched ih.1
        exact ⟨hleft', ih.2.trans huntouched⟩
    exact hboth.2

theorem one_lt_npage : 1 < npage 0x200000 := by decide

theorem two_lt_npage : 2 < npage 0x200000 := by decide

/-- Two megabytes and one environment. The first page is the kernel's, the
next two are the base directory and that of the environment. -/
def soleMem : MemSys (npage 0x200000) where
  kern := { Kern.envInit.updEnv 0 (fun x => { x with envId := 0x800, envStatus := .runnable }) with
    envFreeList := Kern.envInit.envFreeList.remove 0
    asidBitmap := fun i => i = 0 }
  pm := Pmap.pageInit _ 3 (fun _ _ => 0)
  freemem := 3
  basePgdir := ⟨1, one_lt_npage⟩
  sysDirs := fun p => p.val = 1
  pgdir := fun e => if e = 0 then some ⟨2, two_lt_npage⟩ else none
  own := fun p => if p.val < 3 then 1 else 0
  grants := fun _ _ => false
  stored := []

/-- The free ASIDs, slots and pages. -/
structure Stock (s : MemSys n) (asids : Nat) (envs : List EnvIdx) (pages : List (Page n)) :
    Prop where
  asids : (Finset.univ.filter (fun i => s.kern.asidBitmap i = false)).card = asids
  envs : s.kern.envFreeList.Rep envs
  pages : s.pm.pageFreeList.Rep pages

/-- A call of `sys_exofork` that succeeds. -/
def Forked (s t : MemSys n) : Prop :=
  ∃ c cur e s', s.envAlloc (s.kern.envs cur).envId = (.ok e, s') ∧ t = s.sysExofork c cur

variable {asids : Nat} {es : List EnvIdx} {p : Page n} {ps : List (Page n)}

theorem Stock.prepared (h : Stock s asids (e :: es) (p :: ps)) : ∃ t, Prepared s t e p :=
  MemSys.prepared h.envs.first_eq h.pages.first_eq

theorem rep_tail {α : Type} [DecidableEq α] {q : Links α} {x : α} {xs : List α}
    (h : q.Rep (x :: xs)) : (q.remove x).Rep xs := by
  have hrep := h.remove mem_cons_self
  rwa [erase_cons_head] at hrep

/-- Each child takes an ASID, a slot and a page. -/
theorem Stock.forked (h : Stock s (asids + 1) (e :: es) (p :: ps)) :
    ∃ t, Forked s t ∧ Stock t asids es ps := by
  obtain ⟨t, hprep⟩ := h.prepared
  obtain ⟨i, hi⟩ : (Finset.univ.filter (fun i => s.kern.asidBitmap i = false)).Nonempty := by
    rw [← Finset.card_pos, h.asids]
    omega
  obtain ⟨j, k, halloc, hj, hbitmap, hlist⟩ := Kern.envAlloc_asid (ULIM + page2pa p)
    (s.kern.envs 0).envId h.envs.first_eq (Finset.mem_filter.mp hi).2
  have hfork := hprep.alloc (s.kern.envs 0).envId
  rw [halloc] at hfork
  refine ⟨_, ⟨0, 0, e, _, hfork, rfl⟩, ?_⟩
  rw [sysExofork_eq, hfork]
  refine ⟨?_, ?_, ?_⟩
  · change (Finset.univ.filter (fun i => k.asidBitmap i = false)).card = asids
    have herase : Finset.univ.filter (fun i => k.asidBitmap i = false) =
        (Finset.univ.filter (fun i => s.kern.asidBitmap i = false)).erase j := by
      ext i
      rw [hbitmap]
      by_cases hij : i = j <;> simp [hij]
    rw [herase, Finset.card_erase_of_mem (by simp [hj]), h.asids]
    rfl
  · change k.envFreeList.Rep es
    rw [hlist]
    exact rep_tail h.envs
  · change t.pm.pageFreeList.Rep ps
    rw [hprep.pages]
    exact rep_tail h.pages

/-- Without an ASID `env_alloc` fails, and still takes a page. -/
theorem Stock.leaked (h : Stock s 0 (e :: es) (p :: ps)) (parentId : Word) :
    ∃ t, s.envAlloc parentId = (.error .noFreeEnv, t) ∧ Stock t 0 (e :: es) ps := by
  obtain ⟨t, hprep⟩ := h.prepared
  have hnone : ∀ i, s.kern.asidBitmap i = true := by
    intro i
    have hempty := Finset.card_eq_zero.mp h.asids
    by_contra hi
    rw [Bool.not_eq_true] at hi
    have hmem : i ∈ Finset.univ.filter (fun i => s.kern.asidBitmap i = false) := by simp [hi]
    rw [hempty] at hmem
    exact absurd hmem (Finset.notMem_empty i)
  have hfork := hprep.alloc parentId
  rw [Kern.envAlloc_noAsid _ _ h.envs.first_eq hnone] at hfork
  refine ⟨_, hfork, h.asids, h.envs, ?_⟩
  change t.pm.pageFreeList.Rep ps
  rw [hprep.pages]
  exact rep_tail h.pages

/-- A program can use up the ASIDs. -/
theorem Stock.crowded (h : Stock s asids es ps) (hes : asids < es.length)
    (hps : asids < ps.length) :
    ∃ t e es' p ps', ReflTransGen Forked s t ∧ Stock t 0 (e :: es') (p :: ps') := by
  induction asids generalizing s es ps with
  | zero =>
    obtain ⟨e, es', rfl⟩ := exists_cons_of_length_pos hes
    obtain ⟨p, ps', rfl⟩ := exists_cons_of_length_pos hps
    exact ⟨s, e, es', p, ps', .refl, h⟩
  | succ asids ih =>
    obtain ⟨e, es', rfl⟩ := exists_cons_of_length_pos (Nat.zero_lt_of_lt hes)
    obtain ⟨p, ps', rfl⟩ := exists_cons_of_length_pos (Nat.zero_lt_of_lt hps)
    obtain ⟨t, hfork, ht⟩ := h.forked
    obtain ⟨u, e', es'', p', ps'', hforks, hu⟩ := ih ht (Nat.lt_of_succ_lt_succ hes)
      (Nat.lt_of_succ_lt_succ hps)
    exact ⟨u, e', es'', p', ps'', .head hfork hforks, hu⟩

/-- After that it can use up the memory, without a child to show for it. -/
theorem Stock.drained (h : Stock s 0 (e :: es) ps) :
    ∃ t, ReflTransGen FailedFork s t ∧ Stock t 0 (e :: es) [] := by
  induction ps generalizing s with
  | nil => exact ⟨s, .refl, h⟩
  | cons p ps ih =>
    obtain ⟨t, halloc, ht⟩ := h.leaked (s.kern.envs 0).envId
    have hfork : FailedFork s (t.ret 0 Err.noFreeEnv.code) := by
      refine ⟨0, 0, _, t, halloc, ?_⟩
      rw [sysExofork_eq, halloc]
      rfl
    obtain ⟨u, hforks, hu⟩ := ih (s := t.ret 0 Err.noFreeEnv.code) ⟨ht.asids, ht.envs, ht.pages⟩
    exact ⟨u, .head hfork hforks, hu⟩

theorem soleMem_stock : ∃ es ps, Stock soleMem 255 es ps ∧ 255 < es.length ∧ 255 < ps.length := by
  have hasids : (Finset.univ.filter (fun i => soleMem.kern.asidBitmap i = false)).card = 255 := by
    decide +kernel
  have hlist : soleMem.kern.envFreeList = Kern.envInit.envFreeList.remove 0 := by
    unfold soleMem
    with_reducible rfl
  have henvs := Kern.rep_envInit.remove (mem_finRange 0)
  rw [← hlist] at henvs
  have hfree : soleMem.pm.pageFreeList =
      ((finRange (npage 0x200000)).filter (fun pp => 3 ≤ pp.val)).foldl
        (fun q pp => q.insertHead pp) Links.empty := by
    unfold soleMem Pmap.pageInit
    with_reducible rfl
  have hpages := Links.rep_foldl_insertHead
    ((nodup_finRange (npage 0x200000)).filter (fun pp => 3 ≤ pp.val))
  rw [← hfree] at hpages
  refine ⟨_, _, ⟨hasids, henvs, hpages⟩, ?_, ?_⟩
  · rw [length_erase_of_mem (mem_finRange 0), length_finRange]
    decide
  · rw [length_reverse]
    decide +kernel

/-- A failed `env_alloc` takes a page that is not given back, and repeated
calls of `sys_exofork` that all fail take every page. -/
theorem directories_lost : ∃ s t : MemSys (npage 0x200000), ReflTransGen Forked soleMem s ∧
      (∃ u, s.envAlloc 0 = (.error .noFreeEnv, u) ∧ ¬ Untouched s u) ∧
      ReflTransGen FailedFork s t ∧ (∃ p, s.pm.Free p) ∧ ∀ p, ¬ t.pm.Free p := by
  obtain ⟨_, _, hstock, hes, hps⟩ := soleMem_stock
  obtain ⟨s, _, _, p, _, hforks, hs⟩ := hstock.crowded hes hps
  obtain ⟨t, hfailed, ht⟩ := hs.drained
  obtain ⟨u, halloc, hu⟩ := hs.leaked 0
  have hfree : s.pm.Free p := hs.pages.listed_iff.mpr mem_cons_self
  refine ⟨s, t, hforks, ⟨u, halloc, fun huntouched => ?_⟩, hfailed, ⟨p, hfree⟩, fun q hq => ?_⟩
  · have hmem := hu.pages.listed_iff.mp ((huntouched.pages p).mpr hfree)
    exact (nodup_cons.mp hs.pages.1).1 hmem
  · exact absurd (ht.pages.listed_iff.mp hq) not_mem_nil

end MemSys

end MosSmp
