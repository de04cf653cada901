import MosSmp.Fs.Names

/-!
`fs_init` on a disk whose tree is in order. The test of the super block ends
with the super block as it was, on the disk and in its page, and with a copy of
it in the page of the boot block; then the bitmap is read. With memory for these
pages the server starts in a sound state.
-/

namespace MosSmp.Fs

open Lib Prog Relation Server Option Nat

variable {s t u : Server} {E : Stop → Prop} {X : FsErr → Server → Prop} {D : Nat → Block}
  {b n : Nat}

/-- What the start of `fs_init` has done: the pages of the blocks 0 and 1 and
the super block on the disk; nothing else has been touched. -/
structure Booting (D : Nat → Block) (s : Server) (page0 page1 : Option Block) (disk1 : Block) :
    Prop where
  mem : ∀ n, s.mem n = true
  bitmapSet : s.bitmapSet = false
  opentab : s.opentab = fun _ => ⟨none, 0, 0⟩
  page0 : (s.cache 0).map Page.data = page0
  page1 : (s.cache 1).map Page.data = page1
  disk1 : s.disk 1 = disk1
  others : ∀ b, 1 < b → s.cache b = none ∧ s.disk b = D b

variable {page0 page1 : Option Block} {data data0 data1 disk1 : Block}

variable {Q : Unit → Server → Prop}

/-- `read_block` before the super block is known. -/
theorem wp_readBlock_unchecked (hsuper : s.superSet = false) (hbitmap : s.bitmapSet = false)
    (hmem : ∀ n, s.mem n = true) (hb : b < DISKMAX / BLOCK_SIZE) (hc : s.cache b = none)
    (h : Q () ((({ s with asked := s.asked + 1 }).setPage b (some ⟨s.disk b, false⟩)).mark b
      false)) : wp (readBlock b) E X Q s := by
  have hsuper' : ¬ s.superSet = true := by
    rw [hsuper]
    decide
  have hbitmap' : ¬ s.bitmapSet = true := by
    rw [hbitmap]
    decide
  refine wp_bind.mpr (wp_bind.mpr (wp_neg hsuper' ?_))
  refine wp_bind.mpr (wp_bind.mpr (wp_neg hbitmap' ?_))
  refine wp_bind.mpr (wp_blockIsMapped hb ?_)
  rw [hc]
  refine wp_bind.mpr (wp_bind.mpr (wp_bind.mpr ?_))
  exact wp_pos (hmem _) h

theorem wp_orStop {α : Type} {m : FsProg α} {reason : FsErr → Stop} {Q : α → Server → Prop}
    (h : wp m E (fun e _ => E (reason e)) Q s) : wp (orStop m reason) E X Q s :=
  h.attempt (fun _ _ he => he) (fun _ _ hq => hq)

theorem wp_userSpinLock (h : s.lock = false) (hQ : Q () { s with lock := true }) :
    wp userSpinLock E X Q s := by
  have hfree : ¬ s.lock = true := by
    rw [h]
    decide
  exact wp_bind.mpr (wp_neg hfree hQ)

/-- The lock is not recursive. -/
theorem wp_userSpinLock_held (h : s.lock = true) (hE : E .spin) : wp userSpinLock E X Q s :=
  wp_bind.mpr (wp_state.mpr (wp_pos h hE))

theorem wp_userAssert {c : Bool} (hE : E .userAssert) (h : c = true → Q () s) :
    wp (userAssert c) E X Q s := by
  by_cases hc : c = true
  · exact wp_pos hc (h hc)
  · exact wp_neg hc hE

namespace Booting

theorem cached (h : Booting D s page0 (some data) disk1) : s.Cached 1 := by
  obtain ⟨_, hp, _⟩ := map_eq_some_iff.mp h.page1
  exact cached_of_eq hp

theorem view_one (h : Booting D s page0 (some data) disk1) : s.view 1 = data := by
  obtain ⟨_, hp, hd⟩ := map_eq_some_iff.mp h.page1
  rw [view_of_cache hp, hd]

theorem view_other (h : Booting D s page0 page1 disk1) (hb : 1 < b) : s.view b = D b := by
  unfold view
  rw [(h.others b hb).1]
  exact (h.others b hb).2

theorem set_super (h : Booting D s page0 page1 disk1) (f : Bool) :
    Booting D { s with superSet := f } page0 page1 disk1 :=
  ⟨h.mem, h.bitmapSet, h.opentab, h.page0, h.page1, h.disk1, h.others⟩

variable {Q : Unit → Server → Prop}

theorem read_one (h : Booting D s page0 none disk1) (hsuper : s.superSet = false)
    (hQ : ∀ t, Booting D t page0 (some disk1) disk1 → t.lock = s.lock →
      t.superSet = s.superSet → Q () t) : wp (readBlock 1) E X Q s := by
  have hnone : s.cache 1 = none := map_eq_none_iff.mp h.page1
  refine wp_readBlock_unchecked hsuper h.bitmapSet h.mem (by decide) hnone ?_
  refine hQ _ ⟨h.mem, h.bitmapSet, h.opentab, h.page0, ?_, h.disk1, fun b hb => ?_⟩ rfl rfl
  · simp [setPage, mark, h.disk1]
  · have hne : b ≠ 1 := by omega
    simpa [setPage, mark, hne] using h.others b hb

theorem read_zero (h : Booting D s none page1 disk1) (hsuper : s.superSet = false)
    (hQ : ∀ t, Booting D t (some (s.disk 0)) page1 disk1 → t.lock = s.lock →
      t.superSet = s.superSet → Q () t) : wp (readBlock 0) E X Q s := by
  have hnone : s.cache 0 = none := map_eq_none_iff.mp h.page0
  refine wp_readBlock_unchecked hsuper h.bitmapSet h.mem (by decide) hnone ?_
  refine hQ _ ⟨h.mem, h.bitmapSet, h.opentab, ?_, h.page1, h.disk1, fun b hb => ?_⟩ rfl rfl
  · simp [setPage, mark]
  · have hne : b ≠ 0 := by omega
    simpa [setPage, mark, hne] using h.others b hb

section

variable (h : Booting D s page0 page1 disk1)
include h

theorem change_zero (data : Block) : Booting D (s.change 0 data) (some data) page1 disk1 := by
  refine ⟨h.mem, h.bitmapSet, h.opentab, ?_, h.page1, h.disk1, fun b hb => ?_⟩
  · simp [change, setPage, mark]
  · have hne : b ≠ 0 := by omega
    simpa [change, setPage, mark, hne] using h.others b hb

theorem change_one (data : Block) : Booting D (s.change 1 data) page0 (some data) disk1 := by
  refine ⟨h.mem, h.bitmapSet, h.opentab, h.page0, ?_, h.disk1, fun b hb => ?_⟩
  · simp [change, setPage, mark]
  · have hne : b ≠ 1 := by omega
    simpa [change, setPage, mark, hne] using h.others b hb

theorem drop_one : Booting D (s.setPage 1 none) page0 none disk1 := by
  refine ⟨h.mem, h.bitmapSet, h.opentab, h.page0, ?_, h.disk1, fun b hb => ?_⟩
  · simp [setPage]
  · have hne : b ≠ 1 := by omega
    simpa [setPage, hne] using h.others b hb

end

theorem write_one (h : Booting D s page0 (some data) disk1)
    (hQ : ∀ t, Booting D t page0 (some data) data → t.lock = s.lock →
      t.superSet = s.superSet → Q () t) : wp (writeBlock 1) E X Q s := by
  obtain ⟨_, hp, rfl⟩ := map_eq_some_iff.mp h.page1
  refine wp_bind.mpr (wp_blockIsMapped (by decide) ?_)
  rw [hp]
  refine hQ _ ⟨h.mem, h.bitmapSet, h.opentab, h.page0, h.page1, ?_, fun b hb => ?_⟩ rfl rfl
  · simp [mark]
  · have hne : b ≠ 1 := by omega
    simpa [mark, hne] using h.others b hb

theorem copy_to_zero (h : Booting D s (some data0) (some data1) disk1)
    (hQ : ∀ t, Booting D t (some data1) (some data1) disk1 → t.lock = s.lock →
      t.superSet = s.superSet → Q () t) : wp (copyBlock 0 1) E X Q s := by
  obtain ⟨_, hp0, _⟩ := map_eq_some_iff.mp h.page0
  refine wp_bind.mpr (wp_pageAt (by decide) h.cached (fun p hp => ?_))
  refine wp_bind.mpr (wp_pageAt (by decide) (cached_of_eq hp0) (fun _ _ => ?_))
  have hdata : p.data = data1 := by
    have := h.page1
    rw [hp] at this
    exact some.inj this
  subst hdata
  exact hQ _ (h.change_zero p.data) rfl rfl

theorem copy_to_one (h : Booting D s (some data0) (some data1) disk1)
    (hQ : ∀ t, Booting D t (some data0) (some data0) disk1 → t.lock = s.lock →
      t.superSet = s.superSet → Q () t) : wp (copyBlock 1 0) E X Q s := by
  obtain ⟨p0, hp0, rfl⟩ := map_eq_some_iff.mp h.page0
  refine wp_bind.mpr (wp_pageAt (by decide) (cached_of_eq hp0) (fun p hp => ?_))
  refine wp_bind.mpr (wp_pageAt (by decide) h.cached (fun _ _ => ?_))
  obtain rfl : p0 = p := some.inj (hp0.symm.trans hp)
  exact hQ _ (h.change_one p0.data) rfl rfl

end Booting

/-- The server after `check_write_block`. -/
theorem checkWriteBlock_spec (hE : ∀ i, E i) (h : Booting D s none (some (D 1)) (D 1)) :
    wp checkWriteBlock E X (fun _ t => Booting D t (some (D 1)) (some (D 1)) (D 1) ∧
      t.superSet = true ∧ t.lock = s.lock) s := by
  have h := h.set_super false
  refine wp_bind.mpr (wp_update.mpr (wp_bind.mpr (wp_orStop ?_)))
  refine h.read_zero rfl (fun t h hlock hsuper => wp_bind.mpr ?_)
  refine h.copy_to_zero (fun t h hlock' hsuper' => wp_bind.mpr ?_)
  refine wp_storeString (by decide) h.cached (wp_bind.mpr ?_)
  refine (h.change_one _).write_one (fun u h hlock'' hsuper'' => wp_bind.mpr ?_)
  refine wp_blockIsMapped (by decide) (wp_bind.mpr (wp_userAssert (hE _) (fun _ => ?_)))
  refine wp_bind.mpr (wp_update.mpr (wp_bind.mpr ?_))
  refine wp_blockIsMapped (by decide) (wp_bind.mpr (wp_userAssert (hE _) (fun _ => ?_)))
  refine wp_bind.mpr (wp_orStop ?_)
  have hsuper : (u.setPage 1 none).superSet = false := hsuper''.trans (hsuper'.trans hsuper)
  refine h.drop_one.read_one hsuper (fun w h hlock3 hsuper3 => wp_bind.mpr ?_)
  refine wp_stringAt (by decide) h.cached (wp_bind.mpr (wp_userAssert (hE _) (fun _ => ?_)))
  refine wp_bind.mpr (h.copy_to_one (fun w h hlock4 _ => wp_bind.mpr ?_))
  refine h.write_one (fun w h hlock5 _ => wp_update.mpr ⟨h.set_super true, rfl, ?_⟩)
  exact hlock5.trans (hlock4.trans (hlock3.trans (hlock''.trans (hlock'.trans hlock))))

/-- The server while it reads the bitmap: the super block is known and the
blocks with the view `v` are not changed any more. -/
structure Reading (v : View) (s : Server) : Prop where
  mem : ∀ n, s.mem n = true
  superSet : s.superSet = true
  opentab : s.opentab = fun _ => ⟨none, 0, 0⟩
  super : s.Cached 1
  view : s.view = v

namespace Reading

variable {v : View}

section

variable (h : Reading v s)
include h

theorem set_bitmap (f : Bool) : Reading v { s with bitmapSet := f } :=
  ⟨h.mem, h.superSet, h.opentab, h.super, h.view⟩

theorem wp_nblocks {Q : Nat → Server → Prop} (hQ : Q (diskSize v) s) : wp nblocks E X Q s := by
  refine wp_load (l := ⟨1, 1⟩) (by decide) h.super (by decide) ?_
  rw [h.view]
  exact hQ

theorem read (hbitmap : s.bitmapSet = false) (hE : ∀ i, E i)
    (hbound : diskSize v ≤ DISKMAX / BLOCK_SIZE) (b : Nat) :
    wp (readBlock b) E (fun _ _ => False) (fun _ t => Reading v t ∧ t.bitmapSet = false ∧
      (b < diskSize v ∧ t.Cached b) ∧ (∀ c, s.Cached c → t.Cached c) ∧ t.lock = s.lock) s := by
  have hbitmap' : ¬ s.bitmapSet = true := by
    rw [hbitmap]
    decide
  refine wp_bind.mpr (wp_bind.mpr (wp_pos h.superSet (wp_bind.mpr ?_)))
  refine h.wp_nblocks ?_
  by_cases hlt : diskSize v ≤ b
  · exact wp_pos hlt (hE _)
  refine wp_neg hlt (wp_bind.mpr (wp_bind.mpr (wp_neg hbitmap' ?_)))
  have hb : b < DISKMAX / BLOCK_SIZE := lt_of_lt_of_le (not_le.mp hlt) hbound
  refine wp_bind.mpr (wp_blockIsMapped hb ?_)
  cases hp : s.cache b with
  | some =>
    exact ⟨h, hbitmap, ⟨not_le.mp hlt, Server.cached_of_eq hp⟩, fun _ hc => hc, rfl⟩
  | none =>
    have hc : ¬ s.Cached b := Server.not_cached_of_eq hp
    refine wp_bind.mpr (wp_bind.mpr (wp_bind.mpr (wp_pos (h.mem _) ?_)))
    have hcached : ∀ c, s.Cached c → ((({ s with asked := s.asked + 1 }).setPage b
        (some ⟨s.disk b, false⟩)).mark b false).Cached c := by
      intro c hcc
      have hne : c ≠ b := by
        rintro rfl
        exact hc hcc
      simpa [Server.Cached, Server.setPage, Server.mark, hne] using hcc
    refine ⟨⟨h.mem, h.superSet, h.opentab, hcached 1 h.super, ?_⟩, hbitmap,
      ⟨not_le.mp hlt, ?_⟩, hcached, rfl⟩
    · rw [← h.view]
      funext c
      by_cases hcb : c = b
      · subst hcb
        simp [Server.view, Server.setPage, Server.mark, hp]
      · simp [Server.view, Server.setPage, Server.mark, hcb]
    · simp [Server.Cached, Server.setPage, Server.mark]

/-- With the bitmap in the cache, `block_is_free` changes nothing. -/
theorem wp_blockIsFree (hE : ∀ i, E i) (hcached : ∀ c, c < diskSize v → s.Cached (bitmapWord c).blk)
    {Q : Bool → Server → Prop} (hQ : ∀ r, Q r s) : wp (blockIsFree b) E X Q s := by
  refine wp_bind.mpr (wp_neg (by rw [h.superSet]; decide) (wp_bind.mpr ?_))
  refine h.wp_nblocks ?_
  by_cases hlt : diskSize v ≤ b
  · exact wp_pos hlt (hQ _)
  refine wp_neg hlt (wp_bind.mpr ?_)
  by_cases hblk : (bitmapWord b).blk < DISKMAX / BLOCK_SIZE
  · exact wp_load hblk (hcached b (not_le.mp hlt)) (mod_lt _ (by decide)) (hQ _)
  · have hidx : ¬ BLOCK_SIZE / 4 ≤ (bitmapWord b).idx := not_le.mpr (mod_lt _ (by decide))
    refine wp_neg hidx (wp_bind.mpr (wp_bind.mpr ?_))
    exact wp_pos (not_lt.mp hblk) (hE _)

end

end Reading

theorem readBitmap_spec {v : View} (h : Reading v s) (hbitmap : s.bitmapSet = false)
    (hE : ∀ i, E i) (hbound : diskSize v ≤ DISKMAX / BLOCK_SIZE) :
    wp readBitmap E X (fun _ t => Reading v t ∧ t.bitmapSet = true ∧ t.lock = s.lock ∧
      ∀ c, c < diskSize v → (bitmapWord c).blk < diskSize v ∧ t.Cached (bitmapWord c).blk) s := by
  refine wp_bind.mpr (h.wp_nblocks (wp_bind.mpr ?_))
  have hloop := wp_each (E := E) (X := X) (s := s)
    (g := fun i => do let _ ← attempt (readBlock (i + 2)))
    (I := fun rest t => Reading v t ∧ t.bitmapSet = false ∧ t.lock = s.lock ∧
      ∀ i, i < diskSize v / BLOCK_SIZE_BIT + 1 → i ∉ rest → i + 2 < diskSize v ∧ t.Cached (i + 2))
    (fun i rest t ht => ?_) (List.range (diskSize v / BLOCK_SIZE_BIT + 1))
    ⟨h, hbitmap, rfl, fun i hi hn => absurd (List.mem_range.mpr hi) hn⟩
  · refine hloop.post ?_
    rintro _ t ⟨ht, _, hlock, hall⟩
    have hcached : ∀ c, c < diskSize v →
        (bitmapWord c).blk < diskSize v ∧ t.Cached (bitmapWord c).blk := by
      intro c hc
      have hi : c / 32 / (BLOCK_SIZE / 4) < diskSize v / BLOCK_SIZE_BIT + 1 := by
        simp only [BLOCK_SIZE, BLOCK_SIZE_BIT]
        omega
      have := hall _ hi (by simp)
      rwa [add_comm] at this
    have hpages : ∀ c, c < diskSize v → t.Cached (bitmapWord c).blk := fun c hc => (hcached c hc).2
    have ht := ht.set_bitmap true
    refine wp_bind.mpr (wp_update.mpr (wp_bind.mpr ?_))
    refine ht.wp_blockIsFree hE hpages (fun _ => wp_bind.mpr ?_)
    refine wp_userAssert (hE _) (fun _ => wp_bind.mpr ?_)
    refine ht.wp_blockIsFree hE hpages (fun _ => wp_bind.mpr ?_)
    refine wp_userAssert (hE _) (fun _ => ?_)
    have hcheck := wp_each (E := E) (X := X) (s := { t with bitmapSet := true })
      (g := fun i => do userAssert (!(← blockIsFree (i + 2))))
      (I := fun _ u => u = { t with bitmapSet := true })
      (fun i _ u hu => ?_) (List.range (diskSize v / BLOCK_SIZE_BIT + 1)) rfl
    · refine hcheck.post ?_
      rintro _ u rfl
      exact ⟨ht, rfl, hlock, hcached⟩
    · subst hu
      refine wp_bind.mpr (ht.wp_blockIsFree hE hpages (fun _ => ?_))
      exact wp_userAssert (hE _) (fun _ => rfl)
  · obtain ⟨ht, hbit, hlock, hall⟩ := ht
    refine (ht.read hbit hE hbound (i + 2)).attempt (fun _ _ hx => hx.elim) ?_
    rintro _ u ⟨hu, hbit', hci, hcached, hlock'⟩
    refine ⟨hu, hbit', hlock'.trans hlock, fun k hk hkr => ?_⟩
    by_cases hki : k = i
    · rw [hki]
      exact hci
    · obtain ⟨hlt, hck⟩ := hall k hk (by simp [hki, hkr])
      exact ⟨hlt, hcached _ hck⟩

variable {mem : Nat → Bool}

/-- With memory for the pages it reads, `fs_init` leaves all blocks but the boot
block as they are on the disk. -/
theorem fsInit_view (hmem : ∀ n, mem n = true) (hE : ∀ i, E i) :
    wp fsInit E X (fun _ t => Reading t.view t ∧ t.bitmapSet = true ∧ t.lock = false ∧
      (∀ c, c < diskSize t.view →
        (bitmapWord c).blk < diskSize t.view ∧ t.Cached (bitmapWord c).blk) ∧
      ∀ b, b ≠ 0 → t.view b = D b) (powerOn D mem) := by
  have hboot : Booting D { powerOn D mem with lock := true } none none (D 1) :=
    ⟨hmem, rfl, rfl, rfl, rfl, rfl, fun _ _ => ⟨rfl, rfl⟩⟩
  refine wp_bind.mpr (wp_userSpinLock rfl (wp_bind.mpr (wp_bind.mpr ?_)))
  refine wp_orStop ?_
  refine hboot.read_one rfl (fun s hs hlock _ => ?_)
  have hs := hs.set_super true
  refine wp_bind.mpr (wp_update.mpr (wp_bind.mpr ?_))
  refine wp_load (l := ⟨1, 0⟩) (by decide) hs.cached (by decide) ?_
  by_cases hmagic : getAt ({ s with superSet := true } : Server).view ⟨1, 0⟩ ≠ FS_MAGIC
  · exact wp_pos hmagic (hE _)
  refine wp_neg hmagic (wp_bind.mpr ?_)
  refine wp_load (l := ⟨1, 1⟩) (by decide) hs.cached (by decide) ?_
  by_cases hlarge : DISKMAX / BLOCK_SIZE < getAt ({ s with superSet := true } : Server).view ⟨1, 1⟩
  · exact wp_pos hlarge (hE _)
  refine wp_neg hlarge (wp_bind.mpr ?_)
  refine (checkWriteBlock_spec hE hs).post ?_
  rintro _ t ⟨ht, hsuper, _⟩
  have hother : ∀ b, b ≠ 0 → t.view b = D b := by
    intro b hb
    by_cases hb1 : b = 1
    · rw [hb1]
      exact ht.view_one
    · exact ht.view_other (by omega)
  have hbound : diskSize t.view ≤ DISKMAX / BLOCK_SIZE := by
    have hone : getAt ({ s with superSet := true } : Server).view ⟨1, 1⟩ = diskSize t.view := by
      unfold getAt diskSize
      rw [hs.view_one, ht.view_one]
    rw [← hone]
    exact not_lt.mp hlarge
  have hreading : Reading t.view t := ⟨ht.mem, hsuper, ht.opentab, ht.cached, rfl⟩
  refine (readBitmap_spec hreading ht.bitmapSet hE hbound).bind ?_
  rintro _ _ ⟨hu, hbitmap, _, hcached⟩
  rw [← hu.view] at hcached hother
  exact ⟨⟨hu.mem, hu.superSet, hu.opentab, hu.super, rfl⟩, hbitmap, rfl, hcached, hother⟩

/-- A disk whose tree is in order, mounted with memory for the super block, the
boot block and the bitmap. -/
structure Formatted (disk : Nat → Block) (mem : Nat → Bool) : Prop where
  owned : Owned disk (Reserved disk)
  mem : ∀ n, mem n = true

theorem fsInit_spec (h : Formatted D mem) (hE : ∀ i, E i) :
    wp fsInit E X (fun _ t => Sound t (Reserved t.view) ∧ t.lock = false ∧
      t.opentab = fun _ => ⟨none, 0, 0⟩) (powerOn D mem) := by
  refine (fsInit_view h.mem hE).post ?_
  rintro _ t ⟨hreading, hbitmap, hlock, hcached, hother⟩
  have hdisk : diskSize t.view = diskSize D := congrFun (hother 1 (by decide)) 1
  have hres : Reserved t.view = Reserved D := by
    funext c
    unfold Reserved
    rw [hdisk]
  have hzero : Reserved D 0 := Nat.lt_of_lt_of_le Nat.two_pos (Nat.le_add_right _ _)
  have howned : Owned t.view (Reserved t.view) := by
    rw [hres]
    have hout := h.owned.outside_of_kept hzero (by decide)
    refine h.owned.same (hout.sameTree hother) (Owned.unused_congr (fun c _ => hother _ ?_))
    exact Nat.ne_of_gt (Nat.lt_of_lt_of_le Nat.two_pos (Nat.le_add_right _ _))
  exact ⟨⟨hreading.superSet, hbitmap, hreading.super,
    fun c hc => (hcached c hc).2, howned⟩, hlock, hreading.opentab⟩

end MosSmp.Fs
