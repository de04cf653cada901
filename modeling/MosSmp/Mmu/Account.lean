import MosSmp.Mmu.Cases
import MosSmp.Pmap.Local

/-!
The invariant of orderly runs on two CPUs. The accounts of the page layer stay
exact, every directory keeps the entries that `env_setup_vm` gave it above
`UTOP`, and what a CPU has in hand between two sections is still true when its
next section begins. The last part is `Hand`. It survives the steps of the
other CPU because operations on a directory are local, and because the
positions of the two CPUs fit: neither changes the mapping that the other has
looked up, or a directory that the other is taking apart.
-/

namespace MosSmp

open Lib BitVec List

theorem ofNat_idx_toNat (i : Idx) : (BitVec.ofNat 32 i.val).toNat = i.val := by
  rw [toNat_ofNat]
  omega

theorem vaOf_toNat (i j : Idx) : (vaOf i j).toNat = 2 ^ 22 * i.val + 2 ^ 12 * j.val := by
  have hhigh : (BitVec.ofNat 32 i.val <<< 22).toNat = 2 ^ 22 * i.val := by
    rw [toNat_shiftLeft, ofNat_idx_toNat, Nat.shiftLeft_eq]
    omega
  have hlow : (BitVec.ofNat 32 j.val <<< 12).toNat = 2 ^ 12 * j.val := by
    rw [toNat_shiftLeft, ofNat_idx_toNat, Nat.shiftLeft_eq]
    omega
  unfold vaOf
  rw [toNat_or, hhigh, hlow, Nat.two_pow_add_eq_or_of_lt (by omega)]

theorem pdx_vaOf (i j : Idx) : pdx (vaOf i j) = i := by
  apply Fin.ext
  rw [pdx_val, vaOf_toNat]
  omega

theorem ptx_vaOf (i j : Idx) : ptx (vaOf i j) = j := by
  apply Fin.ext
  rw [ptx_val, vaOf_toNat]
  omega

theorem uvptVa_toNat (i : Idx) : (uvptVa i).toNat = 511 * 2 ^ 22 + i.val * 2 ^ 12 := by
  unfold uvptVa
  rw [toNat_add, toNat_shiftLeft, ofNat_idx_toNat, Nat.shiftLeft_eq,
    show UVPT.toNat = 511 * 2 ^ 22 from by decide]
  omega

theorem pdx_uvptVa (i : Idx) : pdx (uvptVa i) = pdx UVPT := by
  apply Fin.ext
  rw [pdx_val, uvptVa_toNat, pdx_utop.2]
  omega

theorem ptx_uvptVa (i : Idx) : ptx (uvptVa i) = i := by
  apply Fin.ext
  rw [ptx_val, uvptVa_toNat]
  omega

theorem pteAddr_shift (va : Word) : pteAddr va >>> 12 = va >>> 12 := by
  apply eq_of_toNat_eq
  exact ppn_pteAddr va

theorem pdx_pteAddr (va : Word) : pdx (pteAddr va) = pdx va :=
  ((shift_eq_iff va (pteAddr va)).mp (pteAddr_shift va)).1

theorem ptx_pteAddr (va : Word) : ptx (pteAddr va) = ptx va :=
  ((shift_eq_iff va (pteAddr va)).mp (pteAddr_shift va)).2

/-- `passive_alloc` accepts addresses below `UTOP` and in the window at
`UVPT`. -/
theorem pdx_of_accepted {va : Word} (h : passiveAllocRefuses va = false) :
    pdx va < pdx UTOP ∨ pdx va = pdx UVPT := by
  have hlayout : UENVS.toNat = 509 * 2 ^ 22 ∧ UPAGES.toNat = 510 * 2 ^ 22 ∧
      UVPT.toNat = 511 * 2 ^ 22 ∧ ULIM.toNat = 512 * 2 ^ 22 := by decide
  obtain ⟨_, _, _, _⟩ := hlayout
  simp only [passiveAllocRefuses, Bool.or_eq_false_iff, Bool.and_eq_false_iff,
    decide_eq_false_iff_not, le_def, lt_def, not_le, not_lt] at h
  obtain ⟨⟨⟨_, _⟩, _⟩, _⟩ := h
  rw [Fin.lt_def, Fin.ext_iff, pdx_utop.1, pdx_utop.2, pdx_val]
  omega

theorem pdx_lt_of_user {va : Word} (h : va < ULIM) : (pdx va).val < 512 := by
  rw [pdx_val]
  have hlim : ULIM.toNat = 512 * 2 ^ 22 := by decide
  rw [lt_def] at h
  omega

theorem nextValid_some {w : Idx → Word} {lo count : Nat} {k : Idx}
    (h : nextValid w lo count = some k) (hlim : lo + count ≤ 1024) :
    lo ≤ k.val ∧ k.val < lo + count ∧ pteValid (w k) = true ∧
      ∀ i : Idx, lo ≤ i.val → i < k → pteValid (w i) = false := by
  induction count generalizing lo with
  | zero => cases h
  | succ count ih =>
    have hval : (Fin.ofNat 1024 lo).val = lo := Nat.mod_eq_of_lt (by omega)
    unfold nextValid at h
    split at h
    · next hv =>
      cases h
      refine ⟨by omega, by omega, hv, fun i hlo hi => ?_⟩
      rw [Fin.lt_def] at hi
      omega
    · next hv =>
      obtain ⟨_, _, h3, h4⟩ := ih h (by omega)
      refine ⟨by omega, by omega, h3, fun i hlo hi => ?_⟩
      by_cases heq : i.val = lo
      · have hi' : i = Fin.ofNat 1024 lo := Fin.ext (by omega)
        rw [hi']
        simpa using hv
      · exact h4 i (by omega) hi

theorem nextValid_none {w : Idx → Word} {lo count : Nat} (h : nextValid w lo count = none)
    (hlim : lo + count ≤ 1024) (i : Idx) (hlo : lo ≤ i.val) (hi : i.val < lo + count) :
    pteValid (w i) = false := by
  induction count generalizing lo with
  | zero => omega
  | succ count ih =>
    have hval : (Fin.ofNat 1024 lo).val = lo := Nat.mod_eq_of_lt (by omega)
    unfold nextValid at h
    split at h
    · cases h
    · next hv =>
      by_cases heq : i.val = lo
      · have hi' : i = Fin.ofNat 1024 lo := Fin.ext (by omega)
        rw [hi']
        simpa using hv
      · exact ih h (by omega) (by omega) (by omega)

namespace MmuPc

variable {n : Nat}

/-- The page that a CPU has been given and has not mapped yet, or the
directory that it is making. -/
def held : MmuPc n → Option (Page n)
  | .fill _ _ p | .insert none _ p _ _ | .built p => some p
  | _ => none

/-- The ASID that `env_free` is about to give back. -/
def dropping : MmuPc n → Option Asid
  | .dropAsid a => some a
  | _ => none

/-- After a flush, a call returns or goes on in the directory it was working
on. -/
def resumes (d : Option (Page n)) : MmuPc n → Prop
  | .rest => True
  | .refill sp _ | .scan sp _ | .strip sp _ _ _ => d = some sp.pgdir
  | _ => False

theorem resumes_rest (o : Option (Page n)) : (rest : MmuPc n).resumes o := trivial

end MmuPc

namespace Mmu

variable {n : Nat} {s s' : Mmu n} {c : CpuId} {pc : MmuPc n} {d p q : Page n}

def Live (s : Mmu n) (sp : Space n) : Prop :=
  s.dirs sp.pgdir = true ∧ s.asidOf sp.pgdir = some sp.asid

/-- A flush is for an address of a live address space. The last one of
`env_free` is for the directory itself. -/
def FlushOf (s : Mmu n) (d : Option (Page n)) (a : Asid) (va : Word) : Prop :=
  match d with
  | some q => s.Live ⟨q, a⟩
  | none => va = uvptVa (pdx UVPT)

/-- What a CPU has found out and relies on. -/
def Hand (s : Mmu n) : MmuPc n → Prop
  | .rest => True
  | .refill sp va => s.Live sp ∧ va < ULIM
  | .fill sp va p =>
    s.Live sp ∧ va < ULIM ∧ passiveAllocRefuses va = false ∧ s.pm.Spare p ∧
      ∀ j, s.pm.mem p j = 0
  | .install sp _ _ _ _ => s.Live sp
  | .insert none dst pp va perm =>
    s.Live dst ∧ pdx va < pdx UTOP ∧ perm < 0x1000#32 ∧ s.pm.Spare pp
  | .insert (some (src, srcva)) dst pp va perm =>
    s.Live dst ∧ pdx va < pdx UTOP ∧ perm < 0x1000#32 ∧ (∃ a, s.Live ⟨src, a⟩) ∧
      s.pageAt src (pdx srcva) (ptx srcva) = some pp
  | .built p => s.dirs p = true ∧ s.asidOf p = none
  | .flush d a va next | .await d a va _ next =>
    s.FlushOf d a va ∧ next.resumes d ∧ s.Hand next
  | .scan sp i => s.Live sp ∧ ∀ k : Idx, k.val < i → k < pdx UTOP →
      pteValid (s.pm.mem sp.pgdir k) = false
  | .strip sp i t j => s.Live sp ∧ i < pdx UTOP ∧ s.tableAt sp.pgdir i = some t ∧
      (∀ k, k < i → pteValid (s.pm.mem sp.pgdir k) = false) ∧
      ∀ k : Idx, k.val < j → pteValid (s.pm.mem t k) = false
  | .dropDir sp => s.Live sp ∧ ∀ k, k < pdx UTOP → pteValid (s.pm.mem sp.pgdir k) = false
  | .dropAsid a => s.asidBitmap a = true ∧ ∀ d, s.asidOf d ≠ some a

/-- The step from `s` to `s'` leaves alone what position `pc` of the other CPU
relies on. -/
structure Keeps (s s' : Mmu n) (pc : MmuPc n) : Prop where
  spaces : ∀ q ∈ pc.uses, s'.dirs q = s.dirs q ∧ s'.asidOf q = s.asidOf q
  words : ∀ q, pc.alone = some q → s.dirs q = true → s'.pm.mem q = s.pm.mem q
  tables : ∀ q, pc.alone = some q → ∀ i t, s.tableAt q i = some t →
    s'.tableAt q i = some t ∧ s'.pm.mem t = s.pm.mem t
  page : ∀ q i j, pc.source = some (q, i, j) → s'.pageAt q i j = s.pageAt q i j
  spare : ∀ p, pc.held = some p → s.pm.Spare p → s'.pm.Spare p ∧ s'.pm.mem p = s.pm.mem p
  made : ∀ p, pc.held = some p → s.dirs p = true →
    s'.dirs p = true ∧ (s.asidOf p = none → s'.asidOf p = none)
  asids : ∀ a, pc.dropping = some a → s.asidBitmap a = true → (∀ d, s.asidOf d ≠ some a) →
    s'.asidBitmap a = true ∧ ∀ d, s'.asidOf d ≠ some a

theorem Keeps.live (k : Keeps s s' pc) {sp : Space n} (hu : sp.pgdir ∈ pc.uses)
    (h : s.Live sp) : s'.Live sp := by
  obtain ⟨hdirs, hasid⟩ := k.spaces _ hu
  exact ⟨hdirs.trans h.1, hasid.trans h.2⟩

variable {o : Option (Page n)}

theorem uses_of_resumes {next : MmuPc n} (h : next.resumes o) (hq : q ∈ next.uses) :
    o = some q := by
  cases next with
  | rest => cases hq
  | refill | scan | strip =>
    obtain rfl := mem_singleton.mp hq
    exact h
  | _ => exact h.elim

theorem plain_of_resumes {next : MmuPc n} (h : next.resumes o) :
    next.held = none ∧ next.dropping = none ∧ next.source = none ∧ next.target = none := by
  cases next with
  | rest | refill | scan | strip => exact ⟨rfl, rfl, rfl, rfl⟩
  | _ => exact h.elim

/-- The hand of a CPU survives the steps of the other one. -/
theorem Hand.frame (h : s.Hand pc) (k : Keeps s s' pc) : s'.Hand pc := by
  induction pc with
  | rest => trivial
  | refill => exact ⟨k.live (mem_singleton_self _) h.1, h.2⟩
  | fill sp va p =>
    obtain ⟨hlive, hva, hacc, hspare, hzero⟩ := h
    obtain ⟨hspare', hmem⟩ := k.spare p rfl hspare
    refine ⟨k.live (mem_singleton_self _) hlive, hva, hacc, hspare', ?_⟩
    rw [hmem]
    exact hzero
  | install => exact k.live (mem_singleton_self _) h
  | insert src dst pp va perm =>
    have hu : dst.pgdir ∈ (MmuPc.insert src dst pp va perm).uses := mem_cons_self
    cases src with
    | none =>
      obtain ⟨hlive, hva, hperm, hspare⟩ := h
      exact ⟨k.live hu hlive, hva, hperm, (k.spare pp rfl hspare).1⟩
    | some x =>
      obtain ⟨src, srcva⟩ := x
      obtain ⟨hlive, hva, hperm, ⟨a, hsrc⟩, hpage⟩ := h
      have hs : src ∈ (MmuPc.insert (some (src, srcva)) dst pp va perm).uses :=
        mem_cons_of_mem _ (mem_singleton_self _)
      refine ⟨k.live hu hlive, hva, hperm, ⟨a, k.live hs hsrc⟩, ?_⟩
      rw [k.page src _ _ rfl]
      exact hpage
  | built p =>
    obtain ⟨hdirs, hasid⟩ := k.made p rfl h.1
    exact ⟨hdirs, hasid h.2⟩
  | flush d a va next ih | await d a va acked next ih =>
    obtain ⟨hlive, hres, hnext⟩ := h
    refine ⟨?_, hres, ih hnext ?_⟩
    · cases d with
      | none => exact hlive
      | some => exact k.live (mem_singleton_self _) hlive
    · have hsub : ∀ q ∈ next.uses, q ∈ d.toList := by
        intro q hq
        rw [uses_of_resumes hres hq]
        exact mem_singleton_self _
      obtain ⟨hheld, hdrop, hsource, _⟩ := plain_of_resumes hres
      refine ⟨fun q hq => k.spaces q (hsub q hq), k.words, k.tables, fun q i j hx => ?_,
        fun p hp => ?_, fun p hp => ?_, fun a ha => ?_⟩
      · cases hsource.symm.trans hx
      · cases hheld.symm.trans hp
      · cases hheld.symm.trans hp
      · cases hdrop.symm.trans ha
  | scan sp i =>
    have hu : sp.pgdir ∈ (MmuPc.scan sp i).uses := mem_singleton_self _
    refine ⟨k.live hu h.1, ?_⟩
    rw [k.words _ rfl h.1.1]
    exact h.2
  | strip sp i t j =>
    have hu : sp.pgdir ∈ (MmuPc.strip sp i t j).uses := mem_singleton_self _
    obtain ⟨hlive, hi, ht, hbelow, hstripped⟩ := h
    obtain ⟨ht', hmem⟩ := k.tables _ rfl i t ht
    refine ⟨k.live hu hlive, hi, ht', ?_, ?_⟩
    · rw [k.words _ rfl hlive.1]
      exact hbelow
    · rw [hmem]
      exact hstripped
  | dropDir sp =>
    have hu : sp.pgdir ∈ (MmuPc.dropDir sp).uses := mem_singleton_self _
    refine ⟨k.live hu h.1, ?_⟩
    rw [k.words _ rfl h.1.1]
    exact h.2
  | dropAsid a => exact k.asids a rfl h.1 h.2

theorem Hand.uses_of_alone (h : s.Hand pc) (hq : pc.alone = some q) : q ∈ pc.uses := by
  induction pc with
  | scan | strip | dropDir =>
    cases hq
    exact mem_singleton_self _
  | flush d a va next ih | await d a va acked next ih =>
    obtain ⟨_, hres, hnext⟩ := h
    rw [uses_of_resumes hres (ih hnext hq)]
    exact mem_singleton_self _
  | _ => cases hq

/-- A CPU works on live address spaces. -/
theorem Hand.live (h : s.Hand pc) (hq : q ∈ pc.uses) : ∃ a, s.Live ⟨q, a⟩ := by
  cases pc with
  | refill sp | fill sp | scan sp | strip sp | dropDir sp =>
    obtain rfl := mem_singleton.mp hq
    exact ⟨sp.asid, h.1⟩
  | install sp =>
    obtain rfl := mem_singleton.mp hq
    exact ⟨sp.asid, h⟩
  | insert src dst =>
    cases src with
    | none =>
      obtain rfl := mem_singleton.mp hq
      exact ⟨dst.asid, h.1⟩
    | some x =>
      obtain ⟨src, _⟩ := x
      rcases mem_cons.mp hq with rfl | hq
      · exact ⟨dst.asid, h.1⟩
      · obtain rfl := mem_singleton.mp hq
        exact h.2.2.2.1
  | flush d a | await d a =>
    cases d with
    | none => cases hq
    | some =>
      obtain rfl := mem_singleton.mp hq
      exact ⟨a, h.1⟩
  | _ => cases hq

/-- The page layer and the address spaces fit together. -/
structure Sound (s : Mmu n) : Prop where
  acc : s.pm.Accounted s.user s.own
  base : s.sysDirs s.basePgdir = true
  split : ∀ d, s.dirs d = true → s.sysDirs d = false
  baseIn : ∀ i, pdx UTOP ≤ i → i < pdx UVPT → pteValid (s.pm.mem s.basePgdir i) = true
  kern : ∀ d i, s.dirs d = true → pdx UTOP ≤ i → i < pdx UVPT →
    s.pm.mem d i = s.pm.mem s.basePgdir i
  self : ∀ d, s.dirs d = true → s.pm.mem d (pdx UVPT) = page2pa d ||| PTE_V
  /-- The entries above `UVPT` keep pages that `passive_alloc` has put there. -/
  extra : ∀ d k, s.dirs d = true → pdx UVPT < k → pteValid (s.pm.mem d k) = true →
    ∃ p : Page n, pa2page (s.pm.mem d k) = some p ∧ 0 < s.own p ∧ s.dirs p = false
  live : ∀ d a, s.asidOf d = some a → s.dirs d = true ∧ s.asidBitmap a = true
  asids : ∀ d d' a, s.asidOf d = some a → s.asidOf d' = some a → d = d'

/-- The positions of the two CPUs do not get in each other's way. -/
structure Fits (pc pc' : MmuPc n) : Prop where
  held : ∀ p, pc.held = some p → pc'.held ≠ some p
  drops : ∀ a, pc.dropping = some a → pc'.dropping ≠ some a
  alone : ∀ d, pc.alone = some d → d ∉ pc'.uses
  uses : ∀ d ∈ pc.uses, pc'.alone ≠ some d
  source : ∀ x, pc.source = some x → pc'.target ≠ some x
  target : ∀ x, pc.target = some x → pc'.source ≠ some x

variable {pc' : MmuPc n}

theorem Fits.symm (h : Fits pc pc') : Fits pc' pc :=
  ⟨fun p hp hp' => h.held p hp' hp, fun a ha ha' => h.drops a ha' ha,
    fun d hd hd' => h.uses d hd' hd, fun d hd hd' => h.alone d hd' hd,
    fun x hx hx' => h.target x hx' hx, fun x hx hx' => h.source x hx' hx⟩

/-- A call goes on with less than it had. -/
theorem Fits.narrow {pc₁ pc' : MmuPc n} (h : Fits pc pc') (hheld : pc₁.held = none)
    (hdrop : pc₁.dropping = none) (hsource : pc₁.source = none) (htarget : pc₁.target = none)
    (huses : ∀ d ∈ pc₁.uses, d ∈ pc.uses) (halone : ∀ d, pc₁.alone = some d → pc.alone = some d) :
    Fits pc₁ pc' := by
  refine ⟨fun p hp => ?_, fun a ha => ?_, fun d hd => h.alone d (halone d hd),
    fun d hd => h.uses d (huses d hd), fun x hx => ?_, fun x hx => ?_⟩
  · cases hheld.symm.trans hp
  · cases hdrop.symm.trans ha
  · cases hsource.symm.trans hx
  · cases htarget.symm.trans hx

/-- A call that only uses directories begins. -/
theorem Fits.ofUses (hheld : pc.held = none) (hdrop : pc.dropping = none)
    (hsource : pc.source = none) (htarget : pc.target = none) (halone : pc.alone = none)
    (huses : ∀ d ∈ pc.uses, pc'.alone ≠ some d) : Fits pc pc' := by
  refine ⟨fun p hp => ?_, fun a ha => ?_, fun d hd => ?_, huses, fun x hx => ?_, fun x hx => ?_⟩
  · cases hheld.symm.trans hp
  · cases hdrop.symm.trans ha
  · cases halone.symm.trans hd
  · cases hsource.symm.trans hx
  · cases htarget.symm.trans hx

theorem Fits.rest : Fits .rest pc' := .ofUses rfl rfl rfl rfl rfl (fun d hd => by cases hd)

theorem uses_of_source {i j : Idx} (h : pc.source = some (q, i, j)) : q ∈ pc.uses := by
  cases pc with
  | insert src =>
    rcases src with _ | ⟨src, _⟩
    · cases h
    · cases h
      exact mem_cons_of_mem _ (mem_singleton_self _)
  | _ => cases h

structure Inv (s : Mmu n) : Prop where
  sound : s.Sound
  hands : ∀ c, s.Hand (s.cpu c).pc
  fits : ∀ c, Fits (s.cpu c).pc (s.cpu (other c)).pc

theorem user_of_dirs {i : Idx} (hd : s.dirs d = true) (hi : i < pdx UTOP) : s.user d i = true := by
  unfold user
  simp [hd, hi]

theorem Sound.user_base (h : s.Sound) (i : Idx) : s.user s.basePgdir i = true := by
  unfold user
  simp [h.base]

theorem dirs_of_user_false {i : Idx} (hi : i < pdx UTOP) (h : s.user d i = false) :
    s.dirs d = false := by
  by_contra hd
  rw [user_of_dirs (by simpa using hd) hi] at h
  cases h

section

variable (h : s.Sound) (hd : s.dirs d = true)
include h hd

theorem Sound.user_above {i : Idx} (hi : pdx UTOP ≤ i) : s.user d i = false := by
  unfold user
  simp [h.split d hd, hd, not_lt.mpr hi]

theorem Sound.base_ne : s.basePgdir ≠ d := by
  rintro rfl
  have hsys := h.split _ hd
  rw [h.base] at hsys
  cases hsys

theorem Sound.not_free : ¬ s.pm.Free d :=
  h.acc.not_free_of_dir (user_of_dirs (i := 0) hd (by decide))

end

/-- The mapping that a CPU has looked up is there, below `UTOP`. -/
theorem Hand.page_of_source {i j : Idx} (hh : s.Hand pc)
    (hx : pc.source = some (q, i, j)) : s.user q i = true ∧ ∃ p, s.pageAt q i j = some p := by
  cases pc with
  | insert src dst pp =>
    rcases src with _ | ⟨src, srcva⟩
    · cases hx
    · obtain ⟨rfl, rfl, rfl⟩ := by simpa [MmuPc.source] using hx
      refine ⟨?_, pp, hh.2.2.2.2⟩
      cases ht : s.pm.tableAt s.user src (pdx srcva) with
      | none => cases (Pmap.pageAt_of_no_table ht).symm.trans hh.2.2.2.2
      | some => exact (Pmap.tableAt_some ht).1
  | _ => cases hx

/-- Steps that change neither the address spaces nor who owns the pages. -/
structure SameSpaces (s s' : Mmu n) : Prop where
  basePgdir : s'.basePgdir = s.basePgdir
  sysDirs : s'.sysDirs = s.sysDirs
  dirs : s'.dirs = s.dirs
  asidOf : s'.asidOf = s.asidOf
  asidBitmap : s'.asidBitmap = s.asidBitmap
  own : s'.own = s.own

theorem SameSpaces.user (h : SameSpaces s s') : s'.user = s.user := by
  funext d i
  unfold Mmu.user
  rw [h.sysDirs, h.dirs]

section

variable (h : s.Sound) (hs : SameSpaces s s')
include h hs

variable {pp : Option (Page n)}

/-- A local operation on an address space keeps everything in order. -/
theorem Sound.ofLocal (hd : s.dirs d = true) (hl : Pmap.Local s.pm s'.pm s.user d pp)
    (hacc : s'.pm.Accounted s.user s.own) : s'.Sound := by
  have hword : ∀ q i, s.dirs q = true → pdx UTOP ≤ i → s'.pm.mem q i = s.pm.mem q i := by
    intro q i hq hi
    apply hl.dirWord h.acc (user_of_dirs (i := 0) hq (by decide))
    exact .inr (h.user_above hd hi)
  have hbase : ∀ i, s'.pm.mem s.basePgdir i = s.pm.mem s.basePgdir i := by
    intro i
    exact hl.dirWord h.acc (h.user_base 0) (.inl (h.base_ne hd))
  have htop : pdx UTOP ≤ pdx UVPT := by decide
  refine ⟨?_, ?_, ?_, ?_, ?_, ?_, ?_, ?_, ?_⟩
  · rw [hs.user, hs.own]
    exact hacc
  · rw [hs.sysDirs, hs.basePgdir]
    exact h.base
  · rw [hs.dirs, hs.sysDirs]
    exact h.split
  · intro i hlo hhi
    rw [hs.basePgdir, hbase]
    exact h.baseIn i hlo hhi
  · intro q i hq hlo hhi
    rw [hs.dirs] at hq
    rw [hs.basePgdir, hbase, hword q i hq hlo]
    exact h.kern q i hq hlo hhi
  · intro q hq
    rw [hs.dirs] at hq
    rw [hword q _ hq htop]
    exact h.self q hq
  · intro q k hq hk hv
    rw [hs.dirs] at hq
    rw [hword q k hq (htop.trans hk.le)] at hv ⊢
    rw [hs.own, hs.dirs]
    exact h.extra q k hq hk hv
  · rw [hs.asidOf, hs.dirs, hs.asidBitmap]
    exact h.live
  · rw [hs.asidOf]
    exact h.asids

/-- A local operation leaves alone what the other CPU relies on, unless it
changes the mapping that one has looked up or the directory it takes apart. -/
theorem Keeps.ofLocal (hl : Pmap.Local s.pm s'.pm s.user d pp) (hacc : s'.pm.Accounted s.user s.own)
    (hd : pc.alone ≠ some d)
    (hpages : ∀ q i j, s'.pageAt q i j = s.pageAt q i j ∨ pc.source ≠ some (q, i, j))
    (hpp : ∀ p, pc.held = some p → s.pm.Spare p → pp ≠ some p) : Keeps s s' pc := by
  have hne : ∀ q, pc.alone = some q → q ≠ d := by
    rintro q hq rfl
    exact hd hq
  refine ⟨fun q _ => ⟨by rw [hs.dirs], by rw [hs.asidOf]⟩, fun q hq hdir => ?_,
    fun q hq i t ht => ?_, fun q i j hx => (hpages q i j).resolve_right (fun hne => hne hx),
    fun p hp hspare => ?_, fun p _ hdir => ?_, fun a _ hbit hno => ?_⟩
  · funext i
    exact hl.dirWord h.acc (user_of_dirs (i := 0) hdir (by decide)) (.inl (hne q hq))
  · refine ⟨?_, hl.table h.acc (hne q hq) ht⟩
    unfold Mmu.tableAt at ht ⊢
    rw [hs.user, hl.tableAt h.acc (hne q hq)]
    exact ht
  · exact hl.spare h.acc hacc hspare (hpp p hp hspare)
  · rw [hs.dirs, hs.asidOf]
    exact ⟨hdir, id⟩
  · rw [hs.asidBitmap, hs.asidOf]
    exact ⟨hbit, hno⟩

theorem Sound.ofSame (hpm : s'.pm = s.pm) : s'.Sound := by
  obtain ⟨h1, h2, h3, h4, h5, h6, h7, h8, h9⟩ := h
  refine ⟨?_, ?_, ?_, ?_, ?_, ?_, ?_, ?_, ?_⟩
  · rw [hs.user, hs.own, hpm]
    exact h1
  · rw [hs.sysDirs, hs.basePgdir]
    exact h2
  · rw [hs.dirs, hs.sysDirs]
    exact h3
  · rw [hpm, hs.basePgdir]
    exact h4
  · rw [hpm, hs.basePgdir, hs.dirs]
    exact h5
  · rw [hpm, hs.dirs]
    exact h6
  · rw [hpm, hs.dirs, hs.own]
    exact h7
  · rw [hs.asidOf, hs.dirs, hs.asidBitmap]
    exact h8
  · rw [hs.asidOf]
    exact h9

end

theorem Keeps.ofSame (hs : SameSpaces s s') (hpm : s'.pm = s.pm) : Keeps s s' pc := by
  refine ⟨fun q _ => ⟨by rw [hs.dirs], by rw [hs.asidOf]⟩, fun q _ _ => by rw [hpm],
    fun q _ i t ht => ⟨?_, by rw [hpm]⟩, fun q i j _ => ?_, fun p _ hspare => ?_,
    fun p _ hdir => ?_, fun a _ hbit hno => ?_⟩
  · unfold Mmu.tableAt at ht ⊢
    rw [hs.user, hpm]
    exact ht
  · unfold Mmu.pageAt
    rw [hs.user, hpm]
  · rw [hpm]
    exact ⟨hspare, rfl⟩
  · rw [hs.dirs, hs.asidOf]
    exact ⟨hdir, id⟩
  · rw [hs.asidBitmap, hs.asidOf]
    exact ⟨hbit, hno⟩

section

variable (s)

@[simp] theorem cpu_upd_self (c : CpuId) (f : MmuCpu n → MmuCpu n) :
    (s.upd c f).cpu c = f (s.cpu c) :=
  Function.update_self ..

@[simp] theorem cpu_upd_other (c : CpuId) (f : MmuCpu n → MmuCpu n) :
    (s.upd c f).cpu (other c) = s.cpu (other c) :=
  Function.update_of_ne (other_ne c) ..

@[simp] theorem cpu_updOther_self (c : CpuId) (f : MmuCpu n → MmuCpu n) :
    (s.upd (other c) f).cpu c = s.cpu c :=
  Function.update_of_ne (other_ne c).symm ..

@[simp] theorem pc_goto (c : CpuId) (pc : MmuPc n) : ((s.goto c pc).cpu c).pc = pc := by
  unfold goto
  rw [cpu_upd_self]

@[simp] theorem pc_goto_other (c : CpuId) (pc : MmuPc n) :
    (s.goto c pc).cpu (other c) = s.cpu (other c) :=
  cpu_upd_other ..

@[simp] theorem cpu_flushLocal_other (c : CpuId) (a : Asid) (va : Word) :
    (s.flushLocal c a va).cpu (other c) = s.cpu (other c) :=
  cpu_upd_other ..

end

theorem Inv.hand_of (h : s.Inv) (hpc : (s.cpu c).pc = pc) : s.Hand pc := hpc ▸ h.hands c

theorem Inv.fits_of (h : s.Inv) (hpc : (s.cpu c).pc = pc) : Fits pc (s.cpu (other c)).pc :=
  hpc ▸ h.fits c

/-- A step of CPU `c` to the position `pc`. -/
theorem Inv.ofStep (h : s.Inv) (hsound : s'.Sound) (hpc : (s'.cpu c).pc = pc)
    (hother : (s'.cpu (other c)).pc = (s.cpu (other c)).pc)
    (hkeeps : Keeps s s' (s.cpu (other c)).pc) (hhand : s'.Hand pc)
    (hfits : Fits pc (s.cpu (other c)).pc) : s'.Inv := by
  refine ⟨hsound, fun d => ?_, fun d => ?_⟩
  all_goals rcases eq_or_eq_other c d with rfl | rfl
  · rw [hpc]
    exact hhand
  · rw [hother]
    exact (h.hands _).frame hkeeps
  · rw [hpc, hother]
    exact hfits
  · rw [other_other, hpc, hother]
    exact hfits.symm

end Mmu

end MosSmp
