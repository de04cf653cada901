import MosSmp.Mmu.Account

/-!
Every orderly step keeps the invariant. One lemma for each kind of step: the
calls that begin, the sections of `page_insert` and `page_remove`, the refill
with `passive_alloc`, and the stages of `env_alloc` and `env_free`.
-/

namespace MosSmp

open Lib Function List Option

namespace Mmu

variable {n : Nat} {s s' : Mmu n} {c : CpuId} {d p q : Page n} {va perm : Word}

variable {pc : MmuPc n}

/-- A CPU moves on without touching memory. -/
theorem Inv.move (h : s.Inv) (hs : SameSpaces s s') (hpm : s'.pm = s.pm) (hpc : (s'.cpu c).pc = pc)
    (hother : (s'.cpu (other c)).pc = (s.cpu (other c)).pc) (hhand : s.Hand pc)
    (hfits : Fits pc (s.cpu (other c)).pc) : s'.Inv :=
  h.ofStep (h.sound.ofSame hs hpm) hpc hother (.ofSame hs hpm) (hhand.frame (.ofSame hs hpm)) hfits

theorem Inv.goto (h : s.Inv) (hhand : s.Hand pc) (hfits : Fits pc (s.cpu (other c)).pc) :
    (s.goto c pc).Inv :=
  h.move ⟨rfl, rfl, rfl, rfl, rfl, rfl⟩ rfl (pc_goto ..) (congrArg _ (pc_goto_other ..)) hhand hfits

variable {m : Pmap n}

section

variable (h : s.Inv)
include h

/-- A CPU moves on after a local operation on a directory. -/
theorem Inv.gotoLocal {pp : Option (Page n)} (hd : s.dirs d = true)
    (halone : (s.cpu (other c)).pc.alone ≠ some d) (hl : Pmap.Local s.pm m s.user d pp)
    (hacc : m.Accounted s.user s.own)
    (hpages : ∀ q i j, m.pageAt s.user q i j = s.pageAt q i j ∨
      (s.cpu (other c)).pc.source ≠ some (q, i, j))
    (hpp : ∀ p, (s.cpu (other c)).pc.held = some p → s.pm.Spare p → pp ≠ some p)
    (hhand : ((s.setPm m).goto c pc).Hand pc) (hfits : Fits pc (s.cpu (other c)).pc) :
    ((s.setPm m).goto c pc).Inv := by
  have hs : SameSpaces s ((s.setPm m).goto c pc) := ⟨rfl, rfl, rfl, rfl, rfl, rfl⟩
  exact h.ofStep (h.sound.ofLocal hs hd hl hacc) (pc_goto ..) (congrArg _ (pc_goto_other ..))
    (.ofLocal h.sound hs hl hacc halone hpages hpp) hhand hfits

/-- What a CPU holds is not free for `page_alloc`. -/
theorem Inv.held_not_free (hp : (s.cpu c).pc.held = some p) : ¬ s.pm.Free p := by
  have hhand := h.hands c
  cases hpc : (s.cpu c).pc with
  | fill =>
    rw [hpc] at hhand hp
    cases hp
    exact hhand.2.2.2.1.1
  | insert src =>
    rw [hpc] at hhand hp
    cases src with
    | none =>
      cases hp
      exact hhand.2.2.2.1
    | some => cases hp
  | built =>
    rw [hpc] at hhand hp
    cases hp
    exact h.sound.not_free hhand.1
  | _ =>
    rw [hpc] at hp
    cases hp

variable {a : Asid}

theorem Inv.touch_step (ha : s.asidOf d = some a) (hva : va < ULIM)
    (hd : (s.cpu (other c)).pc.alone ≠ some d) :
    ((s.flushLocal c a va).goto c (.refill ⟨d, a⟩ va)).Inv := by
  refine h.move (c := c) ⟨rfl, rfl, rfl, rfl, rfl, rfl⟩ rfl (pc_goto ..) ?_
    ⟨⟨(h.sound.live d a ha).1, ha⟩, hva⟩ (.ofUses rfl rfl rfl rfl rfl (fun q hq => ?_))
  · rw [pc_goto_other, cpu_flushLocal_other]
  · rw [mem_singleton.mp hq]
    exact hd

theorem Inv.envFree_step (ha : s.asidOf d = some a) (hd : d ∉ (s.cpu (other c)).pc.uses) :
    (s.goto c (.scan ⟨d, a⟩ 0)).Inv := by
  refine h.goto ⟨⟨(h.sound.live d a ha).1, ha⟩, nofun⟩
    ⟨nofun, nofun, fun q hq => ?_, fun q hq halone => ?_, nofun, nofun⟩
  · rw [← some.inj hq]
    exact hd
  · rw [mem_singleton.mp hq] at halone
    exact hd ((h.hands (other c)).uses_of_alone halone)

/-- `page_alloc` gives a CPU a page. -/
theorem Inv.alloc_step (ha : s.pm.pageAlloc = .ok (p, m)) (hd : s.dirs d = true)
    (halone : (s.cpu (other c)).pc.alone ≠ some d)
    (hhand : m.Spare p → m.mem p = (fun _ => 0) → ((s.setPm m).goto c pc).Hand pc)
    (hheld : pc.held = some p) (hdrop : pc.dropping = none) (hpcAlone : pc.alone = none)
    (hsource : pc.source = none)
    (htarget : ∀ x, pc.target = some x → (s.cpu (other c)).pc.source ≠ some x)
    (huses : ∀ q ∈ pc.uses, q = d) : ((s.setPm m).goto c pc).Inv := by
  obtain ⟨hacc, hl, hwas, hspare, hzero⟩ := h.sound.acc.pageAlloc_local (d := d) ha
  obtain ⟨_, _, _, hslots, _⟩ := h.sound.acc.pageAlloc ha
  refine h.gotoLocal hd halone hl hacc (fun q i j => .inl (congrFun hslots (.inr (q, i, j)))) nofun
    (hhand hspare hzero)
    ⟨fun q hq hq' => ?_, fun b hb => ?_, fun q hq => ?_, fun q hq => ?_, fun x hx => ?_, htarget⟩
  · cases hheld.symm.trans hq
    exact h.held_not_free hq' hwas
  · cases hdrop.symm.trans hb
  · cases hpcAlone.symm.trans hq
  · rw [huses q hq]
    exact halone
  · cases hsource.symm.trans hx

theorem Inv.memAlloc_step (ha : s.asidOf d = some a) (hva : pdx va < pdx UTOP)
    (hok : s.Orderly (.memAlloc c d va perm)) (halloc : s.pm.pageAlloc = .ok (p, m)) :
    ((s.setPm m).goto c (.insert none ⟨d, a⟩ p va perm)).Inv := by
  obtain ⟨hperm, halone, hsource⟩ := hok
  have hdir := (h.sound.live d a ha).1
  refine h.alloc_step halloc hdir halone (fun hspare _ => ?_) rfl rfl rfl rfl (fun x hx => ?_)
    (fun q hq => mem_singleton.mp hq)
  · exact ⟨⟨hdir, ha⟩, hva, hperm, hspare⟩
  · rw [← some.inj hx]
    exact hsource

theorem Inv.share_step {a b : Asid} {src dst pp : Page n} {srcva dstva : Word} {pte : EntryPtr n}
    (hb : s.asidOf src = some b) (ha : s.asidOf dst = some a) (hsrcva : pdx srcva < pdx UTOP)
    (hdstva : pdx dstva < pdx UTOP) (hok : s.Orderly (.share c src srcva dst dstva perm))
    (hlook : s.pm.pageLookup src srcva = some (some (pp, pte))) :
    (s.goto c (.insert (some (src, srcva)) ⟨dst, a⟩ pp dstva perm)).Inv := by
  obtain ⟨hperm, hsrc, hdst, htarget, hsource⟩ := hok
  have hdir := (h.sound.live src b hb).1
  have hpage : s.pageAt src (pdx srcva) (ptx srcva) = some pp := by
    rcases h.sound.acc.pageLookup (user_of_dirs hdir hsrcva) with ⟨hnone, _⟩ | ⟨_, _, hp, _, hat⟩
    · cases hnone.symm.trans hlook
    · obtain ⟨rfl, _⟩ := Prod.mk.inj (some.inj (some.inj (hp.symm.trans hlook)))
      exact hat
  refine h.goto ⟨⟨(h.sound.live dst a ha).1, ha⟩, hdstva, hperm, ⟨b, hdir, hb⟩, hpage⟩
    ⟨nofun, nofun, nofun, fun q hq => ?_, fun x hx => ?_, fun x hx => ?_⟩
  · rcases mem_cons.mp hq with rfl | hq
    · exact hdst
    · rw [mem_singleton.mp hq]
      exact hsrc
  · rw [← some.inj hx]
    exact htarget
  · rw [← some.inj hx]
    exact hsource

end

variable {sp : Space n}

/-- The section of `page_remove`, in a system call or in `env_free`. -/
theorem Inv.remove_step {next : MmuPc n} (h : s.Inv) (hlive : s.Live sp) (hva : pdx va < pdx UTOP)
    (halone : (s.cpu (other c)).pc.alone ≠ some sp.pgdir)
    (hsource : (s.cpu (other c)).pc.source ≠ some (sp.pgdir, pdx va, ptx va))
    (hres : next.resumes (some sp.pgdir))
    (hnextAlone : ∀ q, next.alone = some q → q ∉ (s.cpu (other c)).pc.uses)
    (hnext : ∀ t : Mmu n, SameSpaces s t → (∀ i, t.tableAt sp.pgdir i = s.tableAt sp.pgdir i) →
      (∀ q j, t.pm.mem q j = s.pm.mem q j ∨ t.pm.mem q j = 0) →
      t.pageAt sp.pgdir (pdx va) (ptx va) = none → t.pm.Tables t.user → t.Hand next)
    (hstep : s.removeStep c sp va next = some s') : s'.Inv := by
  have hu := user_of_dirs hlive.1 hva
  obtain ⟨hheld, hdrop, hsrc, htgt⟩ := plain_of_resumes hres
  obtain ⟨_, hrun, hacc, hl, htables, hpages, hnone, hmem⟩ := h.sound.acc.pageRemove_local hu
  have hfits : Fits (.flush (some sp.pgdir) sp.asid va next) (s.cpu (other c)).pc := by
    refine ⟨nofun, nofun, hnextAlone, fun q hq => ?_, nofun, nofun⟩
    rw [mem_singleton.mp hq]
    exact halone
  unfold removeStep at hstep
  rcases h.sound.acc.pageLookup hu with ⟨hlook, hat⟩ | ⟨_, t, hlook, _, _⟩
  · rw [hlook] at hstep
    cases hstep
    refine h.goto ?_ (hfits.narrow hheld hdrop hsrc htgt (fun q hq => ?_) (fun _ hq => hq))
    · exact hnext s ⟨rfl, rfl, rfl, rfl, rfl, rfl⟩ (fun _ => rfl) (fun _ _ => .inl rfl) hat
        h.sound.acc.tables
    · cases uses_of_resumes hres hq
      exact mem_singleton_self _
  · rw [hlook] at hstep
    simp only [hrun, map_some] at hstep
    cases hstep
    refine h.gotoLocal hlive.1 halone hl hacc (fun q i j => ?_) nofun ⟨hlive, hres, ?_⟩ hfits
    · rcases hpages q i j with hsame | ⟨rfl, rfl, rfl, _⟩
      · exact .inl hsame
      · exact .inr hsource
    · exact hnext _ ⟨rfl, rfl, rfl, rfl, rfl, rfl⟩ (htables sp.pgdir) hmem hnone hacc.tables

variable {src : Option (Page n × Word)} {dst : Space n}

/-- What a CPU is about to insert is not free. -/
theorem Inv.insert_not_free (h : s.Inv) (hpc : (s.cpu c).pc = .insert src dst p va perm) :
    ¬ s.pm.Free p := by
  have hhand := h.hand_of hpc
  rcases src with _ | ⟨src, srcva⟩
  · exact hhand.2.2.2.1
  · exact h.sound.acc.not_free_of_slot (x := .inr (src, pdx srcva, ptx srcva)) hhand.2.2.2.2

theorem Hand.of_insert (h : s.Hand (.insert src dst p va perm)) :
    s.Live dst ∧ pdx va < pdx UTOP ∧ perm < 0x1000#32 := by
  rcases src with _ | ⟨src, _⟩
  · exact ⟨h.1, h.2.1, h.2.2.1⟩
  · exact ⟨h.1, h.2.1, h.2.2.1⟩

section

variable (hn : n ≤ 2 ^ 20) (h : s.Inv) (hpc : (s.cpu c).pc = .insert src dst p va perm)
  (href : (s.pm.ppRef p).toNat < 65535)
include hn h hpc href

/-- The section of `page_insert` in a system call. -/
theorem Inv.insert_step (hrun : s.pm.pageInsert dst.pgdir p va perm = some (.ok (), m)) :
    ((s.setPm m).goto c (.flush (some dst.pgdir) dst.asid va .rest)).Inv := by
  have hhand := h.hand_of hpc
  have hfits := h.fits_of hpc
  obtain ⟨hlive, hva, hperm⟩ := hhand.of_insert
  -- a spare page of the other CPU is not the one that is inserted
  have hpp : ∀ q, (s.cpu (other c)).pc.held = some q → s.pm.Spare q → some p ≠ some q := by
    intro q hq hspare heq
    cases heq
    rcases src with _ | ⟨src, srcva⟩
    · exact hfits.held p rfl hq
    · exact (h.sound.acc.spare hspare).2.1 (.inr (src, pdx srcva, ptx srcva)) hhand.2.2.2.2
  obtain ⟨_, _, hrun', hacc, hl, _, hpages, _⟩ := h.sound.acc.pageInsert_local hn
    (user_of_dirs hlive.1 hva) (pteAddr_mapEntry_of_lt p hperm) (h.insert_not_free hpc) href
  cases hrun'.symm.trans hrun
  refine h.gotoLocal hlive.1 (hfits.uses _ mem_cons_self) hl hacc (fun q i j => ?_) hpp
    ⟨hlive, trivial, trivial⟩ (hfits.narrow rfl rfl rfl rfl (fun q hq => ?_) nofun)
  · rcases hpages q i j with hsame | ⟨rfl, rfl, rfl, _⟩
    · exact .inl hsame
    · exact .inr (hfits.target _ rfl)
  · rw [mem_singleton.mp hq]
    exact mem_cons_self

/-- Without memory for a table nothing has happened. -/
theorem Inv.insertFails {err : Err}
    (hrun : s.pm.pageInsert dst.pgdir p va perm = some (.error err, m)) : m = s.pm := by
  have hhand := h.hand_of hpc
  obtain ⟨hlive, hva, hperm⟩ := hhand.of_insert
  obtain ⟨_, _, hrun', _, _, hout, _⟩ := h.sound.acc.pageInsert_local hn
    (user_of_dirs hlive.1 hva) (pteAddr_mapEntry_of_lt p hperm) (h.insert_not_free hpc) href
  cases hrun'.symm.trans hrun
  rcases hout with ⟨hok, _⟩ | ⟨_, hsame⟩
  · cases hok
  · exact hsame

end

/-- At `UVPT` a directory is its own table. -/
theorem Sound.entryPage_self (hn : n ≤ 2 ^ 20) (h : s.Sound) (hd : s.dirs d = true) :
    entryPage (s.pm.mem d (pdx UVPT)) = some d := by
  rw [h.self d hd]
  unfold entryPage
  rw [pteValid_or, if_pos rfl]
  apply pa2page_of_addr hn
  rw [pteAddr_or, pteAddr_page2pa, pteAddr_flags.2]
  exact BitVec.or_zero

theorem Inv.read_step {lo0 lo1 : Word} {born : Nat × Nat} (h : s.Inv)
    (hpc : (s.cpu c).pc = .refill sp va) : (s.goto c (.install sp va lo0 lo1 born)).Inv := by
  have hhand := h.hand_of hpc
  have hfits := h.fits_of hpc
  exact h.goto hhand.1 (hfits.narrow rfl rfl rfl rfl (fun _ hq => hq) (fun _ hq => hq))

theorem Inv.passiveAlloc_step (h : s.Inv) (hpc : (s.cpu c).pc = .refill sp va)
    (hlook : s.pm.pageLookup sp.pgdir va = some none) (hva : passiveAllocRefuses va = false)
    (ha : s.pm.pageAlloc = .ok (p, m)) : ((s.setPm m).goto c (.fill sp va p)).Inv := by
  have hhand := h.hand_of hpc
  have hfits := h.fits_of hpc
  refine h.alloc_step ha hhand.1.1 (hfits.uses _ (mem_singleton_self _))
    (fun hspare hzero => ?_) rfl rfl rfl rfl (fun x hx hsource => ?_)
    (fun q hq => mem_singleton.mp hq)
  · exact ⟨hhand.1, hhand.2, hva, hspare, congrFun hzero⟩
  · -- the other CPU has looked up a mapping, and there is none here
    cases hx
    obtain ⟨hu, _, hat⟩ := (h.hands (other c)).page_of_source hsource
    rcases h.sound.acc.pageLookup hu with ⟨_, hnone⟩ | ⟨q, _, hsome, _⟩
    · cases hnone.symm.trans hat
    · cases hlook.symm.trans hsome

theorem passiveAllocPerm_lt (va : Word) : passiveAllocPerm va < 0x1000#32 := by
  unfold passiveAllocPerm
  split <;> decide

theorem passiveAllocPerm_uvpt (h : pdx va = pdx UVPT) : passiveAllocPerm va = 0 := by
  have hval : va.toNat / 2 ^ 22 = 511 := by
    rw [← pdx_val, h, pdx_utop.2]
  have hlayout : UVPT.toNat = 511 * 2 ^ 22 ∧ ULIM.toNat = 512 * 2 ^ 22 := by decide
  have hin : (UVPT ≤ va && va < ULIM) = true := by
    rw [Bool.and_eq_true, decide_eq_true_iff, decide_eq_true_iff, BitVec.le_def, BitVec.lt_def]
    omega
  unfold passiveAllocPerm
  rw [hin, if_pos rfl]

variable {k : Idx}

/-- `passive_alloc` puts a page above `UVPT`, where no table belongs: the
directory keeps it as an entry that nothing gives back. -/
theorem Sound.extraEntry (hn : n ≤ 2 ^ 20) (h : s.Sound) (hd : s.dirs d = true) (hk : pdx UVPT < k)
    (hs : s.pm.Spare p) :
    Sound { s.setPm ((s.pm.write (d, k) (tableEntry p)).incref p) with
      own := update s.own p (s.own p + 1) } := by
  have hword : ∀ q i, ¬ (q = d ∧ i = k) →
      (s.pm.write (d, k) (tableEntry p)).mem q i = s.pm.mem q i := by
    intro q i hne
    rw [Pmap.mem_write, if_neg hne]
  have hbelow : ∀ q i, i ≤ pdx UVPT →
      (s.pm.write (d, k) (tableEntry p)).mem q i = s.pm.mem q i := by
    intro q i hi
    apply hword
    rintro ⟨_, rfl⟩
    exact absurd hk (not_lt.mpr hi)
  have htop : pdx UTOP ≤ k := le_trans (by decide : pdx UTOP ≤ pdx UVPT) hk.le
  obtain ⟨hplain, _, _⟩ := h.acc.spare hs
  refine ⟨?_, h.base, h.split, ?_, ?_, ?_, ?_, h.live, h.asids⟩
  · refine (h.acc.dirWord (user_of_dirs (i := 0) hd (by decide))
      (h.user_above hd htop)).1.acquire hs.1 ?_
    show (s.pm.ppRef p).toNat < 65535
    rw [hs.2]
    decide
  · intro i hlo hhi
    show pteValid ((s.pm.write (d, k) (tableEntry p)).mem s.basePgdir i) = true
    rw [hbelow _ i hhi.le]
    exact h.baseIn i hlo hhi
  · intro q i hq hlo hhi
    show (s.pm.write (d, k) (tableEntry p)).mem q i =
      (s.pm.write (d, k) (tableEntry p)).mem s.basePgdir i
    rw [hbelow q i hhi.le, hbelow _ i hhi.le]
    exact h.kern q i hq hlo hhi
  · intro q hq
    show (s.pm.write (d, k) (tableEntry p)).mem q (pdx UVPT) = _
    rw [hbelow q _ le_rfl]
    exact h.self q hq
  · intro q i hq hi hv
    change pteValid ((s.pm.write (d, k) (tableEntry p)).mem q i) = true at hv
    show ∃ p' : Page n, pa2page ((s.pm.write (d, k) (tableEntry p)).mem q i) = some p' ∧
      0 < update s.own p (s.own p + 1) p' ∧ s.dirs p' = false
    by_cases hnew : q = d ∧ i = k
    · refine ⟨p, ?_, ?_, dirs_of_user_false (i := 0) (by decide) (hplain 0)⟩
      · rw [Pmap.mem_write, if_pos hnew]
        exact (entryPage_some (Pmap.entryPage_tableEntry hn p)).2
      · rw [update_self]
        omega
    · rw [hword q i hnew] at hv ⊢
      obtain ⟨p', hp', _, hplain'⟩ := h.extra q i hq hi hv
      refine ⟨p', hp', ?_, hplain'⟩
      rw [update_apply]
      split <;> omega

theorem Sound.extraEntry_slots (h : s.Sound) (hd : s.dirs d = true) (hk : pdx UVPT < k) :
    ((s.pm.write (d, k) (tableEntry p)).incref p).slots s.user = s.pm.slots s.user :=
  (h.acc.dirWord (user_of_dirs (i := 0) hd (by decide))
    (h.user_above hd (le_trans (by decide : pdx UTOP ≤ pdx UVPT) hk.le))).2

/-- The other CPU relies neither on that entry nor on that page. -/
theorem Inv.extraEntry_keeps (h : s.Inv) (hd : s.dirs d = true)
    (halone : (s.cpu (other c)).pc.alone ≠ some d) (hp : (s.cpu (other c)).pc.held ≠ some p)
    (hk : pdx UVPT < k) (own : Page n → Nat) :
    Keeps s { s.setPm ((s.pm.write (d, k) (tableEntry p)).incref p) with own := own }
      (s.cpu (other c)).pc := by
  have hu := user_of_dirs (i := 0) hd (by decide)
  have hslots := h.sound.extraEntry_slots (p := p) hd hk
  have hword : ∀ q, q ≠ d → (s.pm.write (d, k) (tableEntry p)).mem q = s.pm.mem q := by
    intro q hq
    funext i
    rw [Pmap.mem_write, if_neg (fun heq => hq heq.1)]
  refine ⟨fun _ _ => ⟨rfl, rfl⟩, fun q hq _ => hword q ?_, fun q _ i t ht => ⟨?_, ?_⟩,
    fun q i j _ => congrFun hslots (.inr (q, i, j)),
    fun q hq hspare => ⟨⟨hspare.1, ?_⟩, hword q ?_⟩, fun _ _ hdir => ⟨hdir, id⟩,
    fun _ _ hbit hno => ⟨hbit, hno⟩⟩
  · rintro rfl
    exact halone hq
  · exact (congrFun hslots (.inl (q, i))).trans ht
  · exact hword t (h.sound.acc.tables.ne_dir ht hu).symm
  · show update s.pm.ppRef p (s.pm.ppRef p + 1) q = 0
    rw [update_of_ne]
    · exact hspare.2
    · rintro rfl
      exact hp hq
  · rintro rfl
    rw [(h.sound.acc.spare hspare).1 0] at hu
    cases hu

/-- The entries of a directory from `UTOP` to `UVPT` are valid from the
start. -/
theorem Sound.ptx_below (h : s.Sound) (hd : s.dirs d = true)
    (hinv : pteValid (s.pm.mem d k) = false) (hk : k ≤ pdx UVPT) : k < pdx UTOP := by
  by_contra hge
  rcases lt_or_eq_of_le hk with hlt | heq
  · have hv := h.baseIn k (not_lt.mp hge) hlt
    rw [← h.kern d k hd (not_lt.mp hge) hlt, hinv] at hv
    cases hv
  · rw [heq, h.self d hd, pteValid_or] at hinv
    cases hinv

theorem Sound.fill_uvpt (hn : n ≤ 2 ^ 20) (h : s.Sound) (hlive : s.Live sp)
    (huvpt : pdx va = pdx UVPT) (hinv : pteValid (s.pm.mem sp.pgdir (ptx va)) = false)
    (hrun : s.pm.pageInsert sp.pgdir p (pteAddr va) (passiveAllocPerm va) = some (.ok (), m)) :
    m = (s.pm.write (sp.pgdir, ptx va) (tableEntry p)).incref p := by
  have hself : entryPage (s.pm.mem sp.pgdir (pdx (pteAddr va))) = some sp.pgdir := by
    rw [pdx_pteAddr, huvpt]
    exact h.entryPage_self hn hlive.1
  rw [← ptx_pteAddr] at hinv
  rw [Pmap.pageInsert_self hself hinv, passiveAllocPerm_uvpt huvpt, Pmap.mapEntry_zero,
    ptx_pteAddr] at hrun
  exact (Prod.mk.inj (some.inj hrun)).2.symm

theorem below_uvpt (h : pdx va < pdx UTOP) : ¬ (pdx va = pdx UVPT ∧ pdx UVPT < ptx va) := by
  rintro ⟨heq, _⟩
  rw [heq] at h
  exact absurd h (by decide)

/-- The section of `page_insert` in `passive_alloc`. -/
theorem Inv.fill_step (hn : n ≤ 2 ^ 20) (h : s.Inv) (hpc : (s.cpu c).pc = .fill sp va p)
    (hno : pdx va = pdx UVPT → pteValid (s.pm.mem sp.pgdir (ptx va)) = false)
    (hrun : s.pm.pageInsert sp.pgdir p (pteAddr va) (passiveAllocPerm va) = some (.ok (), m)) :
    ((if pdx va = pdx UVPT ∧ pdx UVPT < ptx va then
        { s.setPm m with own := update s.own p (s.own p + 1) } else s.setPm m).goto c
      (.flush (some sp.pgdir) sp.asid (pteAddr va) (.refill sp va))).Inv := by
  have hhand := h.hand_of hpc
  have hfits := h.fits_of hpc
  obtain ⟨hlive, hva, hok, hspare, hzero⟩ := hhand
  have halone := hfits.uses _ (mem_singleton_self _)
  have hpp : ∀ q, (s.cpu (other c)).pc.held = some q → s.pm.Spare q → some p ≠ some q := by
    rintro q hq _ heq
    cases heq
    exact hfits.held p rfl hq
  have href : (s.pm.ppRef p).toNat < 65535 := by
    rw [hspare.2]
    decide
  -- wherever the entry goes, the refill starts over
  have hnext : ∀ t : Mmu n, t.Live sp →
      t.Hand (.flush (some sp.pgdir) sp.asid (pteAddr va) (.refill sp va)) :=
    fun t ht => ⟨ht, rfl, ht, hva⟩
  have hfits' : Fits (.flush (some sp.pgdir) sp.asid (pteAddr va) (.refill sp va))
      (s.cpu (other c)).pc :=
    hfits.narrow rfl rfl rfl rfl (fun _ hq => hq) (fun _ hq => hq)
  rcases pdx_of_accepted hok with hbelow | huvpt
  · have hu : s.user sp.pgdir (pdx (pteAddr va)) = true := by
      rw [pdx_pteAddr]
      exact user_of_dirs hlive.1 hbelow
    obtain ⟨_, _, hrun', hacc, hl, _, hpages, _⟩ := h.sound.acc.pageInsert_local hn hu
      (pteAddr_mapEntry_of_lt p (passiveAllocPerm_lt va)) hspare.1 href
    cases hrun'.symm.trans hrun
    rw [if_neg (below_uvpt hbelow)]
    refine h.gotoLocal hlive.1 halone hl hacc (fun q i j => ?_) hpp (hnext _ hlive) hfits'
    rcases hpages q i j with hsame | ⟨rfl, rfl, rfl, _⟩
    · exact .inl hsame
    · rw [pdx_pteAddr, ptx_pteAddr]
      exact .inr (hfits.target _ rfl)
  · have hinv := hno huvpt
    obtain rfl := h.sound.fill_uvpt hn hlive huvpt hinv hrun
    by_cases hk : pdx UVPT < ptx va
    · rw [if_pos ⟨huvpt, hk⟩]
      have hsound := h.sound.extraEntry hn hlive.1 hk hspare
      have hkeeps := h.extraEntry_keeps (c := c) hlive.1 halone (hfits.held p rfl) hk
        (update s.own p (s.own p + 1))
      refine h.ofStep (c := c) (hsound.ofSame ⟨rfl, rfl, rfl, rfl, rfl, rfl⟩ rfl) (pc_goto ..)
        (congrArg _ (pc_goto_other ..)) ?_ (hnext _ hlive) hfits'
      exact ⟨hkeeps.1, hkeeps.2, hkeeps.3, hkeeps.4, hkeeps.5, hkeeps.6, hkeeps.7⟩
    · rw [if_neg (fun heq => hk heq.2)]
      have hlow := h.sound.ptx_below hlive.1 hinv (not_lt.mp hk)
      obtain ⟨hacc, hl, hpages⟩ := h.sound.acc.hang_local hn (user_of_dirs hlive.1 hlow) hinv
        hspare (fun j => by rw [hzero j]; exact pteValid_zero)
      exact h.gotoLocal hlive.1 halone hl hacc (fun q i j => .inl (hpages q i j)) hpp
        (hnext _ hlive) hfits'

end Mmu

end MosSmp
