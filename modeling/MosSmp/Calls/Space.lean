import MosSmp.Calls.Machine
import MosSmp.Mmu.Steps

/-!
The invariant of the system calls, and what an operation on one address space
leaves of another. `CallInv` has the accounting of the pages, what the windows
above `UTOP` show, and which slots are on the free list. `OnDir` says which
words an operation on the directory of one environment may change, and `Kept`
what another environment has of its memory afterwards.
-/

namespace MosSmp

open Lib Function Pmap MemSys Option

namespace MemSys

variable {n : Nat}

/-- The page is mapped by `e` below `UTOP`. -/
def Maps (s : MemSys n) (e : EnvIdx) (p : Page n) : Prop :=
  ∃ d i j, s.pgdir e = some d ∧ i < pdx UTOP ∧ s.pageAt d i j = some p

/-- The tables beyond the window at `UVPT`. Nothing releases them, and they are
neither directories nor tables of user space. -/
def HighTables (s : MemSys n) : Prop :=
  ∀ e d i t, s.pgdir e = some d → pdx UVPT < i → entryPage (s.pm.mem d i) = some t →
    0 < s.own t ∧ (∀ j, s.user t j = false) ∧ ∀ q j, s.tableAt q j ≠ some t

structure CallInv (s : MemSys n) : Prop where
  mem : s.Inv
  sys : ∀ e d, s.pgdir e = some d → s.sysDirs d = false
  base : s.sysDirs s.basePgdir = true
  window : ∀ i, pdx UTOP ≤ i → i < pdx UVPT → pteValid (s.pm.mem s.basePgdir i) = true
  shared : ∀ e d i, s.pgdir e = some d → pdx UTOP ≤ i → i < pdx UVPT →
    s.pm.mem d i = s.pm.mem s.basePgdir i
  self : ∀ e d, s.pgdir e = some d → s.pm.mem d (pdx UVPT) = page2pa d ||| PTE_V
  freeList : s.kern.envFreeList.Holds (fun e => (s.kern.envs e).envStatus = .free)
  running : ∀ e, (s.kern.envs e).envRunning = true → (s.kern.envs e).envStatus ≠ .free
  /-- No kill is pending between two calls. -/
  calm : ∀ e, (s.kern.envs e).envKillPending = false
  above : ∀ e d, s.pgdir e = some d → s.freemem ≤ d.val
  /-- A directory that `env_alloc` left behind when there was no ASID. -/
  vacant : ∀ e d, (s.kern.envs e).envStatus = .free → s.pgdir e = some d →
    ∀ i, s.tableAt d i = none
  high : s.HighTables
  live : ∀ e, (s.kern.envs e).envStatus ≠ .free → s.pgdir e ≠ none

/-- What an operation on the directory `d` of `e` may change. -/
structure OnDir (s s' : MemSys n) (e : EnvIdx) (d : Page n) : Prop where
  dir : s.pgdir e = some d
  kern : s'.kern = s.kern
  base : s'.basePgdir = s.basePgdir
  sysDirs : s'.sysDirs = s.sysDirs
  pgdir : s'.pgdir = s.pgdir
  freemem : s'.freemem = s.freemem
  words : ∀ q j, s'.pm.mem q j ≠ s.pm.mem q j →
    (q = d ∧ (j < pdx UTOP ∨ pdx UVPT < j)) ∨ (∃ i, s.tableAt d i = some q) ∨ s.pm.Free q

/-- What `B` has kept of its memory, apart from pages that `A` maps. -/
structure Kept (s s' : MemSys n) (A B : EnvIdx) : Prop where
  pgdir : s'.pgdir B = s.pgdir B
  dirWords : ∀ d, s.pgdir B = some d → s'.pm.mem d = s.pm.mem d
  tables : ∀ d i t, s.pgdir B = some d → i ≠ pdx UVPT → entryPage (s.pm.mem d i) = some t →
    s'.pm.mem t = s.pm.mem t
  pages : ∀ p, s.Maps B p → ¬ s.Maps A p → s'.pm.mem p = s.pm.mem p

variable {s s' s'' : MemSys n} {e e' A B cur : EnvIdx} {d p q t : Page n} {i j : Idx}
variable {va w : Word}

theorem tableAt_of_pgdir (hd : s.pgdir e = some d) (hi : i < pdx UTOP) :
    s.tableAt d i = entryPage (s.pm.mem d i) := by
  unfold tableAt Pmap.tableAt
  rw [if_pos (user_of_pgdir hd hi)]

theorem tableAt_of_sysDirs (hd : s.sysDirs d = true) :
    s.tableAt d i = entryPage (s.pm.mem d i) := by
  unfold tableAt Pmap.tableAt
  rw [if_pos (by unfold user; rw [hd]; rfl)]

namespace CallInv

section

variable (h : s.CallInv)
include h

section

variable (hd : s.pgdir e = some d)
include hd

theorem user_above (hi : pdx UTOP ≤ i) : s.user d i = false := by
  unfold user
  simp [h.sys e d hd, not_lt.mpr hi]

theorem below_of_user (hu : s.user d i = true) : i < pdx UTOP := by
  by_contra hi
  rw [h.user_above hd (not_lt.mp hi)] at hu
  cases hu

theorem below_of_table (ht : s.tableAt d i = some t) : i < pdx UTOP :=
  h.below_of_user hd (tableAt_some ht).1

end

theorem base_user (i : Idx) : s.user s.basePgdir i = true := by
  unfold user
  rw [h.base]
  rfl

theorem base_ne (hd : s.pgdir e = some d) : s.basePgdir ≠ d := by
  rintro rfl
  have hfalse := h.sys e _ hd
  rw [h.base] at hfalse
  cases hfalse

/-- A directory is neither free nor a table. -/
theorem dir_apart (hu : s.user q i = true) : ¬ s.pm.Free q ∧ ∀ d k, s.tableAt d k ≠ some q := by
  refine ⟨h.mem.acc.not_free_of_dir hu, fun d k hk => ?_⟩
  exact h.mem.acc.tables.ne_dir hk hu rfl

end

end CallInv

namespace OnDir

section

variable (ho : OnDir s s' e d)
include ho

theorem user : s'.user = s.user := by
  funext q i
  unfold MemSys.user
  rw [ho.sysDirs, ho.pgdir]

variable (h : s.CallInv)
include h

theorem dirWord (hu : s.user q i = true) (hne : q ≠ d) :
    s'.pm.mem q = s.pm.mem q := by
  funext j
  by_contra hchanged
  obtain ⟨hfree, htable⟩ := h.dir_apart hu
  rcases ho.words q j hchanged with ⟨rfl, _⟩ | ⟨k, hk⟩ | hf
  · exact hne rfl
  · exact htable d k hk
  · exact hfree hf

/-- The entries of the directory itself that the operation cannot reach. -/
theorem ownWord (hlo : pdx UTOP ≤ i) (hhi : i ≤ pdx UVPT) :
    s'.pm.mem d i = s.pm.mem d i := by
  by_contra hchanged
  have hu := user_dir ho.dir
  obtain ⟨hfree, htable⟩ := h.dir_apart hu
  rcases ho.words d i hchanged with ⟨_, hi | hi⟩ | ⟨k, hk⟩ | hf
  · exact absurd hlo (not_le.mpr hi)
  · exact absurd hhi (not_le.mpr hi)
  · exact htable d k hk
  · exact hfree hf

/-- The tables of the other directories stay as they are. -/
theorem table (hne : q ≠ d) (ht : s.tableAt q i = some t) :
    s'.pm.mem t = s.pm.mem t := by
  funext j
  by_contra hchanged
  rcases ho.words t j hchanged with ⟨rfl, _⟩ | ⟨k, hk⟩ | hfree
  · exact h.mem.acc.tables.ne_dir ht (user_dir ho.dir) rfl
  · exact hne (h.mem.acc.tables.alone q i d k t ht hk).1
  · exact h.mem.acc.not_free_of_slot (x := .inl (q, i)) ht hfree

/-- A mapped page is not written. -/
theorem page (hp : s.Maps e' p) : s'.pm.mem p = s.pm.mem p := by
  obtain ⟨d', i, k, hd', hi, hpage⟩ := hp
  obtain ⟨_, htable, _⟩ := h.mem.mapped e' d' i k p hd' hi hpage
  funext j
  by_contra hchanged
  rcases ho.words p j hchanged with ⟨rfl, _⟩ | ⟨x, hx⟩ | hfree
  · have hpos := h.mem.acc.dirs p 0 (user_of_pgdir ho.dir (by decide))
    omega
  · exact htable d x hx
  · exact h.mem.acc.not_free_of_slot (x := .inr (d', i, k)) hpage hfree

/-- An operation below `UTOP` leaves the high tables alone. -/
theorem high (hown : s'.own = s.own)
    (hwords : ∀ i, pdx UVPT < i → s'.pm.mem d i = s.pm.mem d i)
    (htables : ∀ q i t, s'.tableAt q i = some t → s.tableAt q i = some t ∨ s.pm.Free t) :
    s'.HighTables := by
  intro e' d' i t hd' hi ht
  rw [ho.pgdir] at hd'
  have hword : s'.pm.mem d' i = s.pm.mem d' i := by
    by_cases hdd : d' = d
    · rw [hdd]
      exact hwords i hi
    · rw [ho.dirWord h (user_dir hd') hdd]
  rw [hword] at ht
  obtain ⟨hpos, hdir, htable⟩ := h.high e' d' i t hd' hi ht
  rw [hown, ho.user]
  refine ⟨hpos, hdir, fun q j hq => ?_⟩
  rcases htables q j t hq with hold | hfree
  · exact htable q j hold
  · exact h.mem.acc.not_free_of_own hpos hfree

theorem callInv (hlive : (s.kern.envs e).envStatus ≠ .free) (hinv : s'.Inv)
    (hhigh : s'.HighTables) : s'.CallInv := by
  have hbase : s'.pm.mem s.basePgdir = s.pm.mem s.basePgdir :=
    ho.dirWord h (h.base_user 0) (h.base_ne ho.dir)
  refine ⟨hinv, ?_, ?_, ?_, ?_, ?_, ?_, ?_, ?_, ?_, ?_, hhigh, ?_⟩
  · intro e' d' hd'
    rw [ho.sysDirs]
    rw [ho.pgdir] at hd'
    exact h.sys e' d' hd'
  · rw [ho.sysDirs, ho.base]
    exact h.base
  · intro i hlo hhi
    rw [ho.base, hbase]
    exact h.window i hlo hhi
  · intro e' d' i hd' hlo hhi
    rw [ho.pgdir] at hd'
    rw [ho.base, hbase, ← h.shared e' d' i hd' hlo hhi]
    by_cases hdd : d' = d
    · rw [hdd]
      exact ho.ownWord h hlo hhi.le
    · rw [ho.dirWord h (user_dir hd') hdd]
  · intro e' d' hd'
    rw [ho.pgdir] at hd'
    rw [← h.self e' d' hd']
    by_cases hdd : d' = d
    · rw [hdd]
      exact ho.ownWord h (by decide) (le_refl _)
    · rw [ho.dirWord h (user_dir hd') hdd]
  · rw [ho.kern]
    exact h.freeList
  · rw [ho.kern]
    exact h.running
  · rw [ho.kern]
    exact h.calm
  · intro e' d' hd'
    rw [ho.pgdir] at hd'
    rw [ho.freemem]
    exact h.above e' d' hd'
  · intro e' d' hfree hd' i
    rw [ho.kern] at hfree
    rw [ho.pgdir] at hd'
    have hne : d' ≠ d := by
      rintro rfl
      obtain rfl := h.mem.apart e' e d' hd' ho.dir
      exact hlive hfree
    have hold := h.vacant e' d' hfree hd' i
    unfold tableAt Pmap.tableAt at hold ⊢
    rw [ho.user, ho.dirWord h (user_dir hd') hne]
    exact hold
  · rw [ho.kern, ho.pgdir]
    exact h.live

theorem kept (hne : e ≠ B) (A : EnvIdx) : Kept s s' A B where
  pgdir := by rw [ho.pgdir]
  dirWords := by
    intro d' hd'
    refine ho.dirWord h (user_dir hd') ?_
    rintro rfl
    exact hne (h.mem.apart e B d' ho.dir hd')
  tables := by
    intro d' i t hd' hi ht
    by_cases hlow : i < pdx UTOP
    · refine ho.table h (q := d') (i := i) ?_ (by rw [tableAt_of_pgdir hd' hlow, ht])
      rintro rfl
      exact hne (h.mem.apart e B d' ho.dir hd')
    · rcases lt_or_gt_of_ne hi with hi | hi
      · rw [h.shared B d' i hd' (not_lt.mp hlow) hi] at ht
        refine ho.table h (q := s.basePgdir) (i := i) (h.base_ne ho.dir) ?_
        rw [tableAt_of_sysDirs h.base, ht]
      · obtain ⟨hpos, hdir, htable⟩ := h.high B d' i t hd' hi ht
        funext j
        by_contra hchanged
        rcases ho.words t j hchanged with ⟨rfl, _⟩ | ⟨k, hk⟩ | hfree
        · cases (user_dir ho.dir).symm.trans (hdir 0)
        · exact htable d k hk
        · exact h.mem.acc.not_free_of_own hpos hfree
  pages := fun p hp _ => ho.page h hp

end

end OnDir

theorem maps_iff : s.Maps e p ↔ ∃ d i j t, s.pgdir e = some d ∧ i < pdx UTOP ∧
    entryPage (s.pm.mem d i) = some t ∧ entryPage (s.pm.mem t j) = some p := by
  constructor
  · rintro ⟨d, i, j, hd, hi, hp⟩
    obtain ⟨t, ht, hp⟩ := bind_eq_some_iff.mp hp
    exact ⟨d, i, j, t, hd, hi, (tableAt_some ht).2, hp⟩
  · rintro ⟨d, i, j, t, hd, hi, ht, hp⟩
    refine ⟨d, i, j, hd, hi, ?_⟩
    unfold pageAt
    rw [pageAt_of_table ((tableAt_of_pgdir hd hi).trans ht), hp]

theorem CallInv.dir_ne (h : s.CallInv) (hd : s.pgdir e = some d) (hfree : s.pm.Free p) : d ≠ p := by
  rintro rfl
  exact h.mem.acc.not_free_of_dir (user_dir hd) hfree

theorem CallInv.not_free_of_maps (h : s.CallInv) (hp : s.Maps e p) : ¬ s.pm.Free p := by
  obtain ⟨d, i, j, _, _, hp⟩ := hp
  exact h.mem.acc.not_free_of_slot (x := .inr (d, i, j)) hp

namespace Kept

theorem refl (s : MemSys n) (A B : EnvIdx) : Kept s s A B :=
  ⟨rfl, fun _ _ => rfl, fun _ _ _ _ _ _ => rfl, fun _ _ _ => rfl⟩

theorem of_kern {k : Kern} (h : Kept s s' A B) : Kept s (s'.setKern k) A B :=
  ⟨h.pgdir, h.dirWords, h.tables, h.pages⟩

theorem maps (h : Kept s s' A B) (hp : s.Maps B p) : s'.Maps B p := by
  obtain ⟨d, i, j, t, hd, hi, ht, hp⟩ := maps_iff.mp hp
  have hlt : i ≠ pdx UVPT := (hi.trans (by decide)).ne
  refine maps_iff.mpr ⟨d, i, j, t, by rw [h.pgdir, hd], hi, ?_, ?_⟩
  · rw [h.dirWords d hd, ht]
  · rw [h.tables d i t hd hlt ht, hp]

/-- Operations one after the other. The pages that `A` maps in between are
those it mapped before, or pages that were free. -/
theorem trans (h : s.CallInv) (h₁ : Kept s s' A B) (h₂ : Kept s' s'' A B)
    (hmaps : ∀ p, s'.Maps A p → s.Maps A p ∨ s.pm.Free p) : Kept s s'' A B where
  pgdir := h₂.pgdir.trans h₁.pgdir
  dirWords := by
    intro d hd
    rw [h₂.dirWords d (h₁.pgdir.trans hd), h₁.dirWords d hd]
  tables := by
    intro d i t hd hi ht
    rw [h₂.tables d i t (h₁.pgdir.trans hd) hi (by rw [h₁.dirWords d hd, ht]),
      h₁.tables d i t hd hi ht]
  pages := by
    intro p hB hA
    have hA' : ¬ s'.Maps A p := by
      intro hA'
      rcases hmaps p hA' with hold | hfree
      · exact hA hold
      · exact h.not_free_of_maps hB hfree
    rw [h₂.pages p (h₁.maps hB) hA', h₁.pages p hB hA]

end Kept

/-- Every mapping of an environment lies at `UTEMP` or above. -/
def LegalPages (s : MemSys n) : Prop :=
  ∀ e d i j p, s.pgdir e = some d → i < pdx UTOP → s.pageAt d i j = some p → UTEMP ≤ vaOf i j

/-- What the accesses of `e` and of the kernel on its behalf lead to. -/
structure Touched (s s' : MemSys n) (e : EnvIdx) : Prop where
  inv : s'.CallInv
  kern : s'.kern = s.kern
  kept : ∀ B, e ≠ B → Kept s s' e B
  maps : ∀ p, s'.Maps e p → s.Maps e p ∨ s.pm.Free p
  free : ∀ p, s'.pm.Free p → s.pm.Free p
  legal : s.LegalPages → s'.LegalPages

theorem Touched.refl (h : s.CallInv) (e : EnvIdx) : Touched s s e :=
  ⟨h, rfl, fun B _ => .refl s e B, fun _ hp => .inl hp, fun _ hp => hp, id⟩

theorem Touched.trans (h : s.CallInv) (h₁ : Touched s s' e) (h₂ : Touched s' s'' e) :
    Touched s s'' e where
  inv := h₂.inv
  kern := h₂.kern.trans h₁.kern
  kept := fun B hB => .trans h (h₁.kept B hB) (h₂.kept B hB) h₁.maps
  maps := by
    intro p hp
    rcases h₂.maps p hp with hp | hfree
    · exact h₁.maps p hp
    · exact .inr (h₁.free p hfree)
  free := fun p hp => h₁.free p (h₂.free p hp)
  legal := fun hl => h₂.legal (h₁.legal hl)

variable {r : Except Err Unit} {perm : Word} {pp : Page n}

/-- `page_insert` into the address space of `e`, on all of its paths. -/
theorem insertInto_some (hrun : s.insertInto e pp va perm = some (r, s')) :
    ∃ d, s.pgdir e = some d ∧ s.pm.pageInsert d pp va perm = some (r, s'.pm) ∧
      s'.kern = s.kern ∧ s'.basePgdir = s.basePgdir ∧ s'.sysDirs = s.sysDirs ∧
      s'.pgdir = s.pgdir ∧ s'.freemem = s.freemem ∧ s'.own = s.own := by
  unfold insertInto at hrun
  split at hrun
  · cases hrun
  · next d hd =>
    split at hrun <;> cases hrun
    · next err m hins =>
      exact ⟨d, hd, hins, rfl, rfl, rfl, rfl, rfl, rfl⟩
    · next m hins =>
      exact ⟨d, hd, hins, rfl, rfl, rfl, rfl, rfl, rfl⟩

theorem user_congr (hsys : s'.sysDirs = s.sysDirs) (hpgdir : s'.pgdir = s.pgdir) :
    s'.user = s.user := by
  funext d i
  unfold user
  rw [hsys, hpgdir]

section

variable (hn : n ≤ 2 ^ 20) (h : s.CallInv) (hva : pdx va < pdx UTOP)
include hn h hva

/-- The words that `page_insert` changes, whatever the page and its
counter. -/
theorem CallInv.insertInto_stored (hrun : s.insertInto e pp va perm = some (r, s')) :
    ∃ d, OnDir s s' e d ∧ (r = .ok () ∧ Pmap.Stored s.pm s'.pm d va (mapEntry pp perm) ∨
        r = .error .noMem ∧ s'.pm = s.pm) := by
  obtain ⟨d, hd, hins, hkern, hbase, hsys, hpgdir, hmemory, _⟩ := insertInto_some hrun
  have hu := user_of_pgdir hd hva
  have hacc := h.mem.acc
  have hst := pageInsert_stored hn hacc.list (hacc.not_free_of_dir hu)
    (entryPage_ne_self hacc hu) hins
  refine ⟨d, ⟨hd, hkern, hbase, hsys, hpgdir, hmemory, fun q j hne => ?_⟩, hst⟩
  rcases hst with ⟨_, hst⟩ | ⟨_, hsame⟩
  · rcases hst.changed hu q j hne with ⟨rfl, hj⟩ | htable | hfree
    · exact .inl ⟨rfl, .inl (h.below_of_user hd hj)⟩
    · exact .inr (.inl htable)
    · exact .inr (.inr hfree)
  · rw [hsame] at hne
    exact absurd rfl hne

theorem CallInv.insertInto_high (hrun : s.insertInto e pp va perm = some (r, s')) :
    s'.HighTables := by
  obtain ⟨_, ho, hst⟩ := h.insertInto_stored hn hva hrun
  obtain ⟨_, _, _, _, _, _, _, _, hown⟩ := insertInto_some hrun
  have hu := user_of_pgdir ho.dir hva
  have hdirs : ∀ q i, s.user q i = true → s'.pm.mem q i = s.pm.mem q i ∨
      i = pdx va ∧ ∃ t, s.pm.Free t ∧ s'.pm.mem q i = tableEntry t := by
    intro q i hq
    rcases hst with ⟨_, hst⟩ | ⟨_, hsame⟩
    · rcases hst.dirs h.mem.acc hu hq i with hsame | ⟨_, hi, hnew⟩
      · exact .inl hsame
      · exact .inr ⟨hi, hnew⟩
    · exact .inl (by rw [hsame])
  refine ho.high h hown (fun i hi => ?_) (fun q i t ht => ?_)
  · by_contra hchanged
    rcases hst with ⟨_, hst⟩ | ⟨_, hsame⟩
    · rcases hst.dirs h.mem.acc hu hu i with hsame | ⟨_, rfl, _⟩
      · exact hchanged hsame
      · exact absurd (hi.trans hva) (by decide)
    · exact hchanged (by rw [hsame])
  · unfold tableAt at ht
    rw [ho.user] at ht
    obtain ⟨hq, hentry⟩ := tableAt_some ht
    rcases hdirs q i hq with hsame | ⟨_, _, hfree, hnew⟩
    · refine .inl ?_
      rw [← ht]
      exact (tableAt_congr hsame).symm
    · rw [hnew, entryPage_tableEntry hn] at hentry
      exact .inr (some.inj hentry ▸ hfree)

section

variable (hperm : perm < 0x1000#32) (hfree : ¬ s.pm.Free pp) (href : (s.pm.ppRef pp).toNat < 65535)
  (hrun : s.insertInto e pp va perm = some (r, s'))
include hperm hfree href hrun

/-- The mappings after `page_insert` of a page in use whose counter has room. -/
theorem CallInv.insertInto_pages (q : Page n) (i j : Idx) :
    s'.pageAt q i j = s.pageAt q i j ∨
      (s.pgdir e = some q ∧ i = pdx va ∧ j = ptx va ∧ s'.pageAt q i j = some pp) := by
  obtain ⟨_, hd, hins, _, _, hsys, hpgdir, _, _⟩ := insertInto_some hrun
  have hfits := pteAddr_mapEntry_of_lt pp hperm
  obtain ⟨r', m', hins', _, _, _, hpages, _⟩ :=
    h.mem.acc.pageInsert_local hn (user_of_pgdir hd hva) hfits hfree href
  cases hins'.symm.trans hins
  unfold pageAt
  rw [user_congr hsys hpgdir]
  rcases hpages q i j with hsame | ⟨rfl, hi, hj, hnew⟩
  · exact .inl hsame
  · exact .inr ⟨hd, hi, hj, hnew⟩

/-- `page_insert` where nothing is mapped frees nothing. -/
theorem CallInv.insertInto_free
    (hnone : ∀ d, s.pgdir e = some d → s.pageAt d (pdx va) (ptx va) = none) (hq : s'.pm.Free q) :
    s.pm.Free q := by
  obtain ⟨d, hd, hins, _⟩ := insertInto_some hrun
  have hfits := pteAddr_mapEntry_of_lt pp hperm
  obtain ⟨r', m', hins', hacc', hlocal, _, hpages, htables⟩ :=
    h.mem.acc.pageInsert_local hn (user_of_pgdir hd hva) hfits hfree href
  cases hins'.symm.trans hins
  rcases hlocal.free q hq with hold | ⟨⟨d', i⟩ | ⟨d', i, j⟩, hx⟩
  · exact hold
  · exact absurd hq (hacc'.not_free_of_slot (x := .inl (d', i)) (htables d' i q hx))
  · rcases hpages d' i j with hsame | ⟨rfl, rfl, rfl, _⟩
    · exact absurd hq (hacc'.not_free_of_slot (x := .inr (d', i, j)) (hsame.trans hx))
    · cases (hnone d' hd).symm.trans hx

end

end

variable {g : EnvIdx → Page n → Bool}

/-- `page_alloc`, as part of an operation on any address space. -/
theorem CallInv.pageAlloc_onDir {m : Pmap n} (h : s.CallInv) (hd : s.pgdir e = some d)
    (ha : s.pm.pageAlloc = .ok (p, m)) : OnDir s { s with pm := m, grants := g } e d := by
  obtain ⟨_, hlocal, _⟩ := h.mem.acc.pageAlloc_local (d := d) ha
  refine ⟨hd, rfl, rfl, rfl, rfl, rfl, fun q j hne => ?_⟩
  rcases hlocal.mem q j hne with ⟨rfl, hu⟩ | hrest
  · exact .inl ⟨rfl, .inl (h.below_of_user hd hu)⟩
  · exact .inr hrest

theorem CallInv.pageAlloc_high {m : Pmap n} (h : s.CallInv) (hd : s.pgdir e = some d)
    (ha : s.pm.pageAlloc = .ok (p, m)) : HighTables { s with pm := m, grants := g } := by
  obtain ⟨_, hfree, _, hslots, _, hmem, _⟩ := h.mem.acc.pageAlloc ha
  have hne := h.dir_ne hd hfree
  refine (h.pageAlloc_onDir hd ha).high h rfl (fun i _ => ?_) (fun q i t ht => .inl ?_)
  · show m.mem d i = s.pm.mem d i
    rw [hmem d hne]
  · have ht' : m.tableAt s.user q i = some t := ht
    rwa [← slots_inl, hslots, slots_inl] at ht'

/-- A page is added to an address space at an address below `UTOP` where
nothing was mapped. -/
theorem CallInv.fill {m : Pmap n} (hn : n ≤ 2 ^ 20)
    (h : s.CallInv) (hlive : (s.kern.envs e).envStatus ≠ .free) (hva : pdx va < pdx UTOP)
    (hperm : perm < 0x1000#32) (ha : s.pm.pageAlloc = .ok (p, m))
    (hnone : ∀ d, s.pgdir e = some d → s.pageAt d (pdx va) (ptx va) = none)
    (hlegal : UTEMP ≤ vaOf (pdx va) (ptx va))
    (hrun : insertInto { s with
      pm := m, grants := fun e' q => s.grants e' q && decide (q ≠ p) } e p va perm =
        some (r, s')) : Touched s s' e := by
  obtain ⟨hinv₀, hown, htab, hfree, href⟩ := h.mem.allocated ha
  obtain ⟨_, hfreeOld, _, hslots, _, _, hiff⟩ := h.mem.acc.pageAlloc ha
  obtain ⟨d, hd, _, hkern, _, _, hpgdir, _⟩ := insertInto_some hrun
  have hroom : (m.ppRef p).toNat < 65535 := by
    rw [href]
    decide
  have ho₀ := h.pageAlloc_onDir (g := fun e' q => s.grants e' q && decide (q ≠ p)) hd ha
  have h₀ := ho₀.callInv h hlive hinv₀ (h.pageAlloc_high hd ha)
  obtain ⟨_, ho₁, _⟩ := h₀.insertInto_stored hn hva hrun
  have hinv₁ := (hinv₀.insertInto hn hva hperm hown htab hfree hroom hrun).1
  have hsame : ∀ q i j, m.pageAt s.user q i j = s.pageAt q i j :=
    fun q i j => congrFun hslots (.inr (q, i, j))
  have hpages := h₀.insertInto_pages hn hva hperm hfree hroom hrun
  refine ⟨ho₁.callInv h₀ hlive hinv₁ (h₀.insertInto_high hn hva hrun), hkern, fun B hB => ?_,
    ?_, ?_, ?_⟩
  · refine .trans h (ho₀.kept h hB e) (ho₁.kept h₀ hB e) ?_
    rintro q ⟨d₀, i, j, hd₀, hi, hq⟩
    exact .inl ⟨d₀, i, j, hd₀, hi, (hsame d₀ i j).symm.trans hq⟩
  · rintro q ⟨d₀, i, j, hd₀, hi, hq⟩
    rw [hpgdir] at hd₀
    rcases hpages d₀ i j with heq | ⟨_, _, _, hnew⟩
    · exact .inl ⟨d₀, i, j, hd₀, hi, (hsame d₀ i j).symm.trans (heq.symm.trans hq)⟩
    · cases hnew.symm.trans hq
      exact .inr hfreeOld
  · intro q hq
    refine ((hiff q).mp ?_).2
    refine h₀.insertInto_free hn hva hperm hfree hroom hrun (fun d₀ hd₀ => ?_) hq
    exact (hsame d₀ _ _).trans (hnone d₀ hd₀)
  · intro hl e' d₀ i j q hd₀ hi hq
    rw [hpgdir] at hd₀
    rcases hpages d₀ i j with heq | ⟨_, rfl, rfl, _⟩
    · exact hl e' d₀ i j q hd₀ hi ((hsame d₀ i j).symm.trans (heq.symm.trans hq))
    · exact hlegal

/-- An entry of a directory that is empty is one of user space, or lies beyond
the window at `UVPT`. -/
theorem CallInv.empty_entry (h : s.CallInv) (hd : s.pgdir e = some d)
    (hno : pteValid (s.pm.mem d i) = false) : i < pdx UTOP ∨ pdx UVPT < i := by
  by_contra hin
  rw [not_or, not_lt, not_lt] at hin
  rcases lt_or_eq_of_le hin.2 with hlt | rfl
  · rw [h.shared e d i hd hin.1 hlt, h.window i hin.1 hlt] at hno
    cases hno
  · rw [h.self e d hd, pteValid_or] at hno
    cases hno

section Hang

variable {m : Pmap n} {k : Idx} {g : EnvIdx → Page n → Bool}

/-- The state after `passive_alloc` has filled entry `k` of the directory `d`
with the new page `p`. -/
def hung (s : MemSys n) (m : Pmap n) (d p : Page n) (k : Idx) (g : EnvIdx → Page n → Bool)
    (w : Word) : MemSys n :=
  { s with
    pm := (m.write (d, k) (tableEntry p)).incref p
    own := if pdx UVPT < k then update s.own p (s.own p + 1) else s.own
    grants := g
    stored := (p, w) :: s.stored }

theorem CallInv.hung_accounted (hn : n ≤ 2 ^ 20) (h : s.CallInv) (hd : s.pgdir e = some d)
    (ha : s.pm.pageAlloc = .ok (p, m)) (hno : pteValid (s.pm.mem d k) = false) :
    (s.hung m d p k g w).pm.Accounted s.user (s.hung m d p k g w).own ∧
      (∀ q i j, (s.hung m d p k g w).pm.pageAt s.user q i j = s.pageAt q i j) ∧
      ∀ q i t, (s.hung m d p k g w).pm.tableAt s.user q i = some t →
        s.tableAt q i = some t ∨ (t = p ∧ k < pdx UTOP) := by
  obtain ⟨hacc, _, _, hspare, hzero⟩ := h.mem.acc.pageAlloc_local (d := d) ha
  obtain ⟨_, hfree, _, hslots, _, hmem, _⟩ := h.mem.acc.pageAlloc ha
  have hne := h.dir_ne hd hfree
  have hno' : pteValid (m.mem d k) = false := by rw [hmem d hne, hno]
  have hblank : m.Blank p := by
    intro j
    rw [hzero]
    exact pteValid_zero
  have hpage : ∀ q i j, m.pageAt s.user q i j = s.pageAt q i j :=
    fun q i j => congrFun hslots (.inr (q, i, j))
  have htable : ∀ q i, m.tableAt s.user q i = s.tableAt q i :=
    fun q i => congrFun hslots (.inl (q, i))
  rcases h.empty_entry hd hno with hk | hk
  · have hup : ¬ pdx UVPT < k := not_lt.mpr (hk.le.trans (by decide))
    obtain ⟨hacc', hlocal', hpages⟩ := hacc.hang_local hn (user_of_pgdir hd hk) hno' hspare hblank
    unfold hung
    rw [if_neg hup]
    refine ⟨hacc', fun q i j => (hpages q i j).trans (hpage q i j), fun q i t ht => ?_⟩
    rcases hlocal'.slots (.inl (q, i)) t ht with hold | hnew | hfree'
    · exact .inl ((htable q i).symm.trans hold)
    · exact .inr ⟨some.inj hnew, hk⟩
    · exact absurd hfree' (hacc'.not_free_of_slot (x := .inl (q, i)) ht)
  · have htop : pdx UTOP ≤ k := le_trans (by decide : pdx UTOP ≤ pdx UVPT) hk.le
    obtain ⟨hword, hsame⟩ := hacc.dirWord (w := tableEntry p)
      (user_dir hd) (h.user_above hd htop)
    unfold hung
    rw [if_pos hk]
    refine ⟨hword.acquire hspare.1 ?_, fun q i j => ?_, fun q i t ht => ?_⟩
    · show (m.ppRef p).toNat < 65535
      rw [hspare.2]
      decide
    · refine Eq.trans ?_ (hpage q i j)
      show (m.write (d, k) (tableEntry p)).pageAt s.user q i j = _
      rw [← slots_inr, hsame, slots_inr]
    · have ht' : (m.write (d, k) (tableEntry p)).tableAt s.user q i = some t := ht
      rw [← slots_inl, hsame, slots_inl, htable] at ht'
      exact .inl ht'

/-- The window at `UVPT` fills in a table. -/
theorem CallInv.hang (hn : n ≤ 2 ^ 20) (h : s.CallInv)
    (hlive : (s.kern.envs e).envStatus ≠ .free) (hd : s.pgdir e = some d)
    (ha : s.pm.pageAlloc = .ok (p, m)) (hno : pteValid (s.pm.mem d k) = false)
    (hgrants : ∀ e' q, q ≠ p → s.grants e' q = true → g e' q = true)
    (hw : pteAddr w = page2pa p) : Touched s (s.hung m d p k g w) e := by
  obtain ⟨hacc, hpages, htables⟩ := h.hung_accounted (g := g) (w := w) hn hd ha hno
  obtain ⟨_, hfree, _, _, _, hmem, hiff⟩ := h.mem.acc.pageAlloc ha
  obtain ⟨_, hunused⟩ := h.mem.acc.unused_of_free hfree
  have ho : OnDir s (s.hung m d p k g w) e d := by
    refine ⟨hd, rfl, rfl, rfl, rfl, rfl, fun q j hne => ?_⟩
    have hword : (s.hung m d p k g w).pm.mem q j =
        if q = d ∧ j = k then tableEntry p else m.mem q j := mem_write ..
    by_cases heq : q = d ∧ j = k
    · obtain ⟨rfl, rfl⟩ := heq
      exact .inl ⟨rfl, h.empty_entry hd hno⟩
    · rw [hword, if_neg heq] at hne
      have hq : q = p := by
        by_contra hqp
        rw [hmem q hqp] at hne
        exact hne rfl
      exact .inr (.inr (hq ▸ hfree))
  have hmapped : ∀ e' d' i j q, s.pgdir e' = some d' → i < pdx UTOP →
      s.pageAt d' i j = some q → q ≠ p := by
    rintro e' d' i j q _ _ hq rfl
    exact hunused (.inr (d', i, j)) hq
  have hpos : ∀ q, 0 < s.own q → 0 < (s.hung m d p k g w).own q := by
    intro q hq
    unfold hung
    dsimp only
    split
    · rw [update_apply]
      split <;> omega
    · exact hq
  have hinv : (s.hung m d p k g w).Inv := by
    refine ⟨hacc, ?_, h.mem.apart, ?_, h.mem.dstva, ?_⟩
    · exact fun q hq => hpos q (h.mem.boot q hq)
    · intro e' d' i j q hd' hi hq
      have hq' : s.pageAt d' i j = some q := (hpages d' i j).symm.trans hq
      have hne := hmapped e' d' i j q hd' hi hq'
      obtain ⟨hown, htab, hgrant⟩ := h.mem.mapped e' d' i j q hd' hi hq'
      refine ⟨?_, fun d'' i'' ht => ?_, hgrants e' q hne hgrant⟩
      · unfold hung
        dsimp only
        split
        · rw [update_of_ne hne, hown]
        · exact hown
      · rcases htables d'' i'' q ht with hold | hnew
        · exact htab d'' i'' hold
        · exact hne hnew.1
    · intro x hx
      rcases List.mem_cons.mp hx with rfl | hx
      · exact hw
      · exact h.mem.stored x hx
  have hhigh : (s.hung m d p k g w).HighTables := by
    intro e' d' i t hd' hi ht
    have hword : (s.hung m d p k g w).pm.mem d' i =
        if d' = d ∧ i = k then tableEntry p else m.mem d' i := mem_write ..
    rw [hword] at ht
    split at ht
    · next heq =>
      obtain ⟨rfl, rfl⟩ := heq
      rw [entryPage_tableEntry hn] at ht
      cases ht
      refine ⟨?_, fun j => (h.mem.acc.unused_of_free hfree).1 j, fun q j hq => ?_⟩
      · unfold hung
        dsimp only
        rw [if_pos hi, update_self]
        omega
      · rcases htables q j p hq with hold | ⟨_, hk⟩
        · exact hunused (.inl (q, j)) hold
        · exact absurd (hi.trans hk) (by decide)
    · rw [hmem d' (h.dir_ne hd' hfree)] at ht
      obtain ⟨hown, hdir, htable⟩ := h.high e' d' i t hd' hi ht
      refine ⟨hpos t hown, hdir, fun q j hq => ?_⟩
      rcases htables q j t hq with hold | ⟨rfl, _⟩
      · exact htable q j hold
      · exact h.mem.acc.not_free_of_own hown hfree
  refine ⟨ho.callInv h hlive hinv hhigh, rfl, fun B hB => ho.kept h hB e, ?_, ?_, ?_⟩
  · rintro q ⟨d', i, j, hd', hi, hq⟩
    exact .inl ⟨d', i, j, hd', hi, (hpages d' i j).symm.trans hq⟩
  · exact fun q hq => ((hiff q).mp hq).2
  · intro hl e' d' i j q hd' hi hq
    exact hl e' d' i j q hd' hi ((hpages d' i j).symm.trans hq)

end Hang

theorem legal_of_accepted (hva : passiveAllocRefuses va = false) :
    UTEMP ≤ vaOf (pdx (pteAddr va)) (ptx (pteAddr va)) := by
  have htemp : UTEMP.toNat = 0x3fe * 2 ^ 12 := by decide
  simp only [passiveAllocRefuses, Bool.or_eq_false_iff, decide_eq_false_iff_not, BitVec.lt_def,
    not_lt] at hva
  rw [BitVec.le_def, vaOf_toNat, pdx_pteAddr, ptx_pteAddr, pdx_val, ptx_val]
  omega

/-- A loop of accesses. -/
theorem CallInv.foldlM {α : Type} {f : MemSys n → α → Option (MemSys n)}
    (hf : ∀ {s s' a}, s.CallInv → (s.kern.envs e).envStatus ≠ .free → f s a = some s' →
      Touched s s' e) (l : List α) (h : s.CallInv) (hlive : (s.kern.envs e).envStatus ≠ .free)
    (hrun : l.foldlM f s = some s') : Touched s s' e := by
  induction l generalizing s with
  | nil =>
    cases hrun
    exact .refl h e
  | cons a l ih =>
    obtain ⟨_, ha, hrest⟩ := bind_eq_some_iff.mp hrun
    have h₁ := hf h hlive ha
    exact h₁.trans h (ih h₁.inv (by rw [h₁.kern]; exact hlive) hrest)

section

variable (hn : n ≤ 2 ^ 20) (h : s.CallInv)
include hn h

theorem CallInv.entryPage_self (hd : s.pgdir e = some d) :
    entryPage (s.pm.mem d (pdx UVPT)) = some d := by
  rw [h.self e d hd]
  exact entryPage_selfEntry hn d

/-- A lookup in the window at `UVPT` reads the directory. -/
theorem CallInv.lookup_window (hd : s.pgdir e = some d) (hwin : pdx va = pdx UVPT)
    (hlook : s.pm.pageLookup d va = some none) :
    pteValid (s.pm.mem d (ptx va)) = false := by
  have hself : entryPage (s.pm.mem d (pdx va)) = some d := by
    rw [hwin]
    exact h.entryPage_self hn hd
  unfold pageLookup at hlook
  rw [pgdirWalk_of_table hself] at hlook
  dsimp only at hlook
  split at hlook
  · obtain ⟨_, _, hcontra⟩ := map_eq_some_iff.mp hlook
    cases hcontra
  · next hno => exact Bool.not_eq_true _ ▸ hno

variable (hlive : (s.kern.envs e).envStatus ≠ .free)
include hlive

theorem CallInv.passiveAlloc_window {m : Pmap n} (hd : s.pgdir e = some d)
    (hwin : pdx va = pdx UVPT) (hno : pteValid (s.pm.mem d (ptx va)) = false)
    (ha : s.pm.pageAlloc = .ok (p, m)) {s₁ : MemSys n}
    (hrun : insertInto { s with
      pm := m, grants := fun e' q => s.grants e' q && decide (q ≠ p) } e p (pteAddr va)
        (passiveAllocPerm va) = some (.ok (), s₁)) :
    Touched s (if pdx va = pdx UVPT ∧ pdx UVPT < ptx va then
      { s₁ with own := update s₁.own p (s₁.own p + 1) } else s₁) e := by
  obtain ⟨_, hfree, _, _, _, hmem, _⟩ := h.mem.acc.pageAlloc ha
  have hne := h.dir_ne hd hfree
  have hself : entryPage (m.mem d (pdx (pteAddr va))) = some d := by
    rw [pdx_pteAddr, hwin, hmem d hne]
    exact h.entryPage_self hn hd
  have hno' : pteValid (m.mem d (ptx (pteAddr va))) = false := by
    rw [ptx_pteAddr, hmem d hne, hno]
  have hins : m.pageInsert d p (pteAddr va) 0 =
      some (.ok (), (m.write (d, ptx (pteAddr va)) (mapEntry p 0)).incref p) :=
    pageInsert_self hself hno'
  rw [mapEntry_zero, ptx_pteAddr] at hins
  have hentry : ((m.write (d, ptx va) (tableEntry p)).incref p).entryAt d (pteAddr va) =
      tableEntry p := by
    have hk : ptx va ≠ pdx UVPT := by
      rintro heq
      rcases h.empty_entry hd hno with hk | hk
      · rw [heq] at hk
        exact absurd hk (by decide)
      · rw [heq] at hk
        exact absurd hk (lt_irrefl _)
    have hself' : entryPage (((m.write (d, ptx va) (tableEntry p)).incref p).mem d
        (pdx (pteAddr va))) = some d := by
      show entryPage ((m.write (d, ptx va) (tableEntry p)).mem d _) = some d
      rw [mem_write, if_neg, hself]
      rintro ⟨_, heq⟩
      exact hk (by rw [← heq, pdx_pteAddr, hwin])
    unfold entryAt
    rw [pgdirWalk_of_table hself']
    show (m.write (d, ptx va) (tableEntry p)).mem d (ptx (pteAddr va)) = _
    rw [mem_write, ptx_pteAddr, if_pos ⟨rfl, rfl⟩]
  unfold insertInto at hrun
  rw [Mmu.passiveAllocPerm_uvpt hwin] at hrun
  simp only [hd, hins, hentry, some.injEq, Prod.mk.injEq, true_and] at hrun
  have htouched := h.hang (k := ptx va) (w := tableEntry p)
    (g := update (fun e' q => s.grants e' q && decide (q ≠ p)) e
      (update (fun q => s.grants e q && decide (q ≠ p)) p true)) hn hlive hd ha hno
    (fun e' q hq hg => granted_update (.inl (by simp [hg, hq]))) (pteAddr_tableEntry p)
  unfold hung at htouched
  rw [← hrun]
  by_cases hk : pdx UVPT < ptx va
  · rw [if_pos hk] at htouched
    rw [if_pos ⟨hwin, hk⟩]
    exact htouched
  · rw [if_neg hk] at htouched
    rw [if_neg (fun hand => hk hand.2)]
    exact htouched

theorem CallInv.passiveAlloc (hlook : s.lookupIn e va = some none)
    (hrun : s.passiveAlloc e va = some s') : Touched s s' e := by
  obtain ⟨d, hd, hnone⟩ : ∃ d, s.pgdir e = some d ∧ s.pm.pageLookup d va = some none := by
    unfold lookupIn at hlook
    split at hlook
    · cases hlook
    · next d hd =>
      obtain ⟨_, hr, hmap⟩ := map_eq_some_iff.mp hlook
      rw [map_eq_none_iff] at hmap
      exact ⟨d, hd, hmap ▸ hr⟩
  unfold MemSys.passiveAlloc at hrun
  split at hrun
  · cases hrun
  · next hva =>
    rw [Bool.not_eq_true] at hva
    split at hrun
    · cases hrun
    · next p m ha =>
      split at hrun
      · next s₁ hins =>
        rcases pdx_of_accepted hva with hlow | hwin
        · rw [if_neg (Mmu.below_uvpt hlow)] at hrun
          cases hrun
          refine h.fill hn hlive (by rwa [pdx_pteAddr]) (Mmu.passiveAllocPerm_lt va) ha
            (fun d' hd' => ?_) (legal_of_accepted hva) hins
          cases hd.symm.trans hd'
          rw [pdx_pteAddr, ptx_pteAddr]
          rcases h.mem.acc.pageLookup (user_of_pgdir hd hlow) with ⟨_, hpage⟩ | ⟨_, _, hq, _⟩
          · exact hpage
          · cases hnone.symm.trans hq
        · have htouched := h.passiveAlloc_window hn hlive hd hwin
            (h.lookup_window hn hd hwin hnone) ha hins
          split at hrun <;> cases hrun
          · next hcond =>
            rwa [if_pos hcond] at htouched
          · next hcond =>
            rwa [if_neg hcond] at htouched
      · cases hrun

theorem CallInv.touch (hrun : s.touch e va = some s') : Touched s s' e := by
  unfold MemSys.touch at hrun
  split at hrun
  · cases hrun
    exact .refl h e
  · split at hrun
    · cases hrun
    · cases hrun
      exact .refl h e
    · next hlook => exact h.passiveAlloc hn hlive hlook hrun

theorem CallInv.touchRange {len : Nat} (hrun : s.touchRange e va len = some s') :
    Touched s s' e :=
  CallInv.foldlM (fun h hlive hrun => h.touch hn hlive hrun) _ h hlive hrun

end

/-- A store to a page that `e` maps. -/
theorem CallInv.store {k : Idx} (h : s.CallInv) (hp : s.Maps e p) :
    Touched s { s with pm := s.pm.write (p, k) w } e := by
  obtain ⟨d, i, j, hd, hi, hpage⟩ := hp
  obtain ⟨_, htab, _⟩ := h.mem.mapped e d i j p hd hi hpage
  have hdir : ∀ i, s.user p i = false := by
    intro i
    by_contra hu
    have hpos := h.mem.acc.dirs p i (Bool.eq_true_of_not_eq_false hu)
    omega
  have hword : ∀ q, q ≠ p → (s.pm.write (p, k) w).mem q = s.pm.mem q :=
    fun q hq => update_of_ne hq _ _
  have hplain : ∀ q, s.user q 0 = true → q ≠ p := by
    rintro q hu rfl
    cases hu.symm.trans (hdir 0)
  have hne : ∀ e' d', s.pgdir e' = some d' → d' ≠ p := fun e' d' hd' => hplain d' (user_dir hd')
  have hbase := hplain _ (h.base_user 0)
  have hslots : (s.pm.write (p, k) w).slots s.user = s.pm.slots s.user := by
    refine slots_congr (fun q x hu => ?_) (fun q x t y ht => ?_)
    · rw [hword q (by rintro rfl; rw [hdir x] at hu; cases hu)]
    · rw [hword t (by rintro rfl; exact htab q x ht)]
  have hpages : ∀ q x y, (s.pm.write (p, k) w).pageAt s.user q x y = s.pageAt q x y :=
    fun q x y => congrFun hslots (.inr (q, x, y))
  have htables : ∀ q x, (s.pm.write (p, k) w).tableAt s.user q x = s.tableAt q x :=
    fun q x => congrFun hslots (.inl (q, x))
  refine ⟨⟨⟨?_, h.mem.boot, h.mem.apart, ?_, h.mem.dstva, h.mem.stored⟩, h.sys, h.base, ?_, ?_, ?_,
    h.freeList, h.running, h.calm, h.above, ?_, ?_, h.live⟩, rfl, fun B hB => ?_, ?_,
    fun _ hq => hq, ?_⟩
  · exact h.mem.acc.data hdir htab rfl rfl hword
  · intro e' d' x y q hd' hx hq
    obtain ⟨h1, h2, h3⟩ := h.mem.mapped e' d' x y q hd' hx ((hpages d' x y).symm.trans hq)
    exact ⟨h1, fun d'' x' ht => h2 d'' x' ((htables d'' x').symm.trans ht), h3⟩
  · intro x hlo hhi
    rw [hword _ hbase]
    exact h.window x hlo hhi
  · intro e' d' x hd' hlo hhi
    rw [hword _ hbase, hword _ (hne e' d' hd')]
    exact h.shared e' d' x hd' hlo hhi
  · intro e' d' hd'
    rw [hword _ (hne e' d' hd')]
    exact h.self e' d' hd'
  · intro e' d' hfree hd' x
    exact (htables d' x).trans (h.vacant e' d' hfree hd' x)
  · intro e' d' x t hd' hx ht
    have ht' : entryPage ((s.pm.write (p, k) w).mem d' x) = some t := ht
    rw [hword _ (hne e' d' hd')] at ht'
    obtain ⟨hpos, hdir', htable⟩ := h.high e' d' x t hd' hx ht'
    exact ⟨hpos, hdir', fun q y hq => htable q y ((htables q y).symm.trans hq)⟩
  · refine ⟨rfl, fun d' hd' => hword _ (hne B d' hd'), fun d' x t hd' hx ht => ?_,
      fun q _ hq => ?_⟩
    · refine hword t ?_
      rintro rfl
      by_cases hlow : x < pdx UTOP
      · exact htab d' x (by rw [tableAt_of_pgdir hd' hlow, ht])
      · rcases lt_or_gt_of_ne hx with hx | hx
        · rw [h.shared B d' x hd' (not_lt.mp hlow) hx] at ht
          exact htab s.basePgdir x (by rw [tableAt_of_sysDirs h.base, ht])
        · have hpos := (h.high B d' x t hd' hx ht).1
          omega
    · refine hword q ?_
      rintro rfl
      exact hq ⟨d, i, j, hd, hi, hpage⟩
  · rintro q ⟨d', x, y, hd', hx, hq⟩
    exact .inl ⟨d', x, y, hd', hx, (hpages d' x y).symm.trans hq⟩
  · intro hl e' d' x y q hd' hx hq
    exact hl e' d' x y q hd' hx ((hpages d' x y).symm.trans hq)

theorem CallInv.entryFor_maps (h : s.CallInv) (hva : pdx va < pdx UTOP)
    (hrun : s.entryFor e va = some (p, w)) : s.Maps e p := by
  unfold entryFor at hrun
  split at hrun
  · cases hrun
  · next d hd =>
    rcases h.mem.acc.pageLookup (user_of_pgdir hd hva) with ⟨hlook, _⟩ | ⟨_, _, hlook, _, hq⟩
    · rw [hlook] at hrun
      cases hrun
    · rw [hlook] at hrun
      cases hrun
      exact ⟨d, _, _, hd, hva, hq⟩

theorem CallInv.storeWord (h : s.CallInv) (hva : pdx va < pdx UTOP)
    (hrun : s.storeWord e va w = some s') : Touched s s' e := by
  unfold MemSys.storeWord at hrun
  split at hrun
  · next p entry hentry =>
    split at hrun <;> cases hrun
    exact h.store (h.entryFor_maps hva hentry)
  · cases hrun

/-- The stack of `do_tlb_mod` lies below `UTOP`. -/
theorem pdx_frame {top : Word} (hlo : USTACKTOP ≤ top) (hhi : top ≤ UXSTACKTOP) (k : Fin 38) :
    pdx (top - sizeofTrapframe + BitVec.ofNat 32 (4 * k.val)) < pdx UTOP := by
  have hlayout : USTACKTOP.toNat = 509 * 2 ^ 22 - 8192 ∧ UXSTACKTOP.toNat = 509 * 2 ^ 22 ∧
      sizeofTrapframe.toNat = 152 := by decide
  obtain ⟨_, _, h3⟩ := hlayout
  rw [BitVec.le_def] at hlo hhi
  rw [Fin.lt_def, pdx_utop.1, pdx_val, BitVec.toNat_add, BitVec.toNat_sub, BitVec.toNat_ofNat, h3]
  omega

theorem CallInv.copyFrame {frame : Fin 38 → Word} {b : Bool} (hn : n ≤ 2 ^ 20) (h : s.CallInv)
    (hlive : (s.kern.envs e).envStatus ≠ .free)
    (hva : ∀ k : Fin 38, pdx (va + BitVec.ofNat 32 (4 * k.val)) < pdx UTOP) (l : List (Fin 38))
    (hrun : copyFrame e va frame l s = some (b, s')) : Touched s s' e := by
  induction l generalizing s with
  | nil =>
    cases hrun
    exact .refl h e
  | cons k l ih =>
    obtain ⟨s₁, htouch, hrest⟩ := bind_eq_some_iff.mp hrun
    have h₁ := h.touch hn hlive htouch
    split at hrest
    · next s₂ hstore =>
      have h₂ := h₁.trans h (h₁.inv.storeWord (hva k) hstore)
      exact h₂.trans h (ih h₂.inv (by rw [h₂.kern]; exact hlive) hrest)
    · cases hrest
      exact h₁

theorem CallInv.pushFrame {frame : Fin 38 → Word} (hn : n ≤ 2 ^ 20) (h : s.CallInv)
    (hlive : (s.kern.envs e).envStatus ≠ .free) (hrun : s.pushFrame e frame = some s') :
    Touched s s' e := by
  unfold MemSys.pushFrame at hrun
  split at hrun <;> cases hrun
  next hcopy => exact h.copyFrame hn hlive (pdx_frame (by decide) (by decide)) _ hcopy

end MemSys

end MosSmp
