import MosSmp.Fs.Own

/-!
What the functions on blocks do to the tree. `Sound` is the state in which
`fs_init` leaves the server, with the tree in order. The specification of a
function says which stops it can end in, and relates the state it ends in to
the state it started from: `Calm` if no block has changed as the server sees
it, `Fill` if at most empty places of files have been filled.
-/

namespace MosSmp.Fs

open Lib Prog Relation Server Function

variable {s t u : Server} {kept kept' : Nat → Prop} {E : Stop → Prop} {X : FsErr → Server → Prop}
  {l : Loc} {b c w : Nat} {F : FilePtr}

namespace Server

/-- The state after a store to a cached block. -/
def put (s : Server) (l : Loc) (w : Nat) : Server :=
  s.change l.blk (update (s.view l.blk) l.idx w)

theorem view_change (s : Server) (b : Nat) (data : Block) :
    (s.change b data).view = update s.view b data := by
  funext c
  by_cases hc : c = b
  · subst hc
    simp [view, change, setPage, mark]
  · simp [view, change, setPage, mark, hc]

theorem cached_change (s : Server) (b : Nat) (data : Block) (c : Nat) :
    (s.change b data).Cached c ↔ c = b ∨ s.Cached c := by
  by_cases hc : c = b
  · subst hc
    simp [Cached, change, setPage, mark]
  · simp [Cached, change, setPage, mark, hc]

theorem view_put (s : Server) (l : Loc) (w : Nat) : (s.put l w).view = setAt s.view l w :=
  view_change s l.blk _

theorem view_of_cache {p : Page} (h : s.cache b = some p) : s.view b = p.data := by
  simp [view, h]

end Server

/-- Pages stay mapped and the pointers to the super block and the bitmap stay
set. -/
structure Grown (s t : Server) : Prop where
  cached : ∀ b, s.Cached b → t.Cached b
  superSet : t.superSet = s.superSet
  bitmapSet : t.bitmapSet = s.bitmapSet

theorem Grown.refl (s : Server) : Grown s s := ⟨fun _ h => h, rfl, rfl⟩

theorem Grown.trans (h : Grown s t) (h' : Grown t u) : Grown s u :=
  ⟨fun b hb => h'.cached b (h.cached b hb), h'.superSet.trans h.superSet,
    h'.bitmapSet.trans h.bitmapSet⟩

theorem grown_change (s : Server) (b : Nat) (data : Block) : Grown s (s.change b data) :=
  ⟨fun c hc => (s.cached_change b data c).mpr (.inr hc), rfl, rfl⟩

theorem grown_put (s : Server) (l : Loc) (w : Nat) : Grown s (s.put l w) := grown_change s l.blk _

/-- Every block is as before; pages are new only for blocks in use. -/
structure Calm (s t : Server) : Prop extends Grown s t where
  view : t.view = s.view
  loaded : ∀ b, t.Cached b → s.Cached b ∨ Used s.view b

theorem Calm.refl (s : Server) : Calm s s := ⟨.refl s, rfl, fun _ h => .inl h⟩

theorem Calm.trans (h : Calm s t) (h' : Calm t u) : Calm s u := by
  refine ⟨h.toGrown.trans h'.toGrown, h'.view.trans h.view, fun b hb => ?_⟩
  rcases h'.loaded b hb with hb | hb
  · exact h.loaded b hb
  · exact .inr (h.view ▸ hb)

/-- The server after `fs_init`, with the tree in order. -/
structure Sound (s : Server) (kept : Nat → Prop) : Prop where
  superSet : s.superSet = true
  bitmapSet : s.bitmapSet = true
  super : s.Cached 1
  bitmap : ∀ b, b < diskSize s.view → s.Cached (bitmapWord b).blk
  owned : Owned s.view kept

theorem Sound.of_grown (hs : Sound s kept) (h : Grown s t)
    (hdisk : diskSize t.view = diskSize s.view) (ho : Owned t.view kept') : Sound t kept' where
  superSet := h.superSet.trans hs.superSet
  bitmapSet := h.bitmapSet.trans hs.bitmapSet
  super := h.cached 1 hs.super
  bitmap := by
    intro b hb
    rw [hdisk] at hb
    exact h.cached _ (hs.bitmap b hb)
  owned := ho

theorem Sound.of_calm (hs : Sound s kept) (h : Calm s t) : Sound t kept :=
  hs.of_grown h.toGrown (by rw [h.view]) (h.view ▸ hs.owned)

/-! ### Accesses to pages -/

section Access

variable {α : Type}

theorem wp_blockIsMapped {Q : Option Page → Server → Prop} (hb : b < DISKMAX / BLOCK_SIZE)
    (h : Q (s.cache b) s) : wp (blockIsMapped b) E X Q s := by
  exact wp_neg (Nat.not_le.mpr hb) h

theorem wp_pageAt {Q : Page → Server → Prop} (hb : b < DISKMAX / BLOCK_SIZE) (hc : s.Cached b)
    (h : ∀ p, s.cache b = some p → Q p s) : wp (pageAt b) E X Q s := by
  obtain ⟨p, hp⟩ := Option.isSome_iff_exists.mp hc
  refine wp_bind.mpr (wp_blockIsMapped hb ?_)
  rw [hp]
  exact h p hp

theorem wp_load {Q : Nat → Server → Prop} (hb : l.blk < DISKMAX / BLOCK_SIZE)
    (hc : s.Cached l.blk) (hi : l.idx < BLOCK_SIZE / 4) (h : Q (getAt s.view l) s) :
    wp (load l) E X Q s := by
  refine wp_neg (Nat.not_le.mpr hi) (wp_bind.mpr (wp_pageAt hb hc (fun p hp => ?_)))
  have hview := view_of_cache hp
  unfold getAt at h
  rw [hview] at h
  exact h

theorem wp_store {Q : Unit → Server → Prop} (hb : l.blk < DISKMAX / BLOCK_SIZE)
    (hc : s.Cached l.blk) (hi : l.idx < BLOCK_SIZE / 4) (h : Q () (s.put l w)) :
    wp (store l w) E X Q s := by
  refine wp_neg (Nat.not_le.mpr hi) (wp_bind.mpr (wp_pageAt hb hc (fun p hp => ?_)))
  have hview := view_of_cache hp
  unfold put at h
  rw [hview] at h
  exact h

theorem wp_memAlloc {Q : Unit → Server → Prop} (hok : Q () { s with asked := s.asked + 1 })
    (hfail : ¬ s.mem s.asked = true → X .noMem { s with asked := s.asked + 1 }) :
    wp memAlloc E X Q s := by
  refine wp_bind.mpr (wp_bind.mpr ?_)
  by_cases hm : s.mem s.asked = true
  · exact wp_pos hm hok
  · exact wp_neg hm (hfail hm)

end Access

namespace Sound

theorem lt_of_used (hs : Sound s kept) (hb : Used s.view b) : b < DISKMAX / BLOCK_SIZE :=
  hs.owned.used_lt hb

theorem bitmap_lt (hs : Sound s kept) (hb : b < diskSize s.view) :
    (bitmapWord b).blk < DISKMAX / BLOCK_SIZE :=
  hs.lt_of_used (hs.owned.holding.kept_used _ (hs.owned.reserved _ (Owned.bitmap_reserved _ hb)))

theorem bitmapWord_idx (b : Nat) : (bitmapWord b).idx < BLOCK_SIZE / 4 := Nat.mod_lt _ (by decide)

theorem wp_nblocks (hs : Sound s kept) {Q : Nat → Server → Prop} (h : Q (diskSize s.view) s) :
    wp nblocks E X Q s :=
  wp_load (l := ⟨1, 1⟩) (by decide) hs.super (by decide) h

theorem wp_bitmap (hs : Sound s kept) (hb : b < diskSize s.view) {Q : Nat → Server → Prop}
    (h : Q (getAt s.view (bitmapWord b)) s) : wp (load (bitmapWord b)) E X Q s :=
  wp_load (hs.bitmap_lt hb) (hs.bitmap b hb) (bitmapWord_idx b) h

/-- A block in use passes the checks of `read_block`. -/
theorem wp_checks (hs : Sound s kept) (hb : Used s.view b) {Q : Unit → Server → Prop}
    (h : Q () s) : wp (checkExists b) E X (fun _ => wp (checkUsed b) E X Q) s := by
  have hlt := Nat.not_le.mpr hb.1
  refine wp_bind.mpr (wp_pos hs.superSet ?_)
  refine wp_bind.mpr (hs.wp_nblocks (wp_neg hlt ?_))
  refine wp_bind.mpr (wp_pos hs.bitmapSet ?_)
  refine wp_bind.mpr (wp_bind.mpr (wp_neg (by rw [hs.superSet]; decide) ?_))
  refine wp_bind.mpr (hs.wp_nblocks (wp_neg hlt ?_))
  refine wp_bind.mpr (hs.wp_bitmap hb.1 (wp_neg ?_ h))
  exact hb.2

end Sound

theorem calm_ask (s : Server) : Calm s { s with asked := s.asked + 1 } :=
  ⟨⟨fun _ h => h, rfl, rfl⟩, rfl, fun _ h => .inl h⟩

/-- Reading a block that is not cached changes nothing that the server sees. -/
theorem calm_ideRead (hc : ¬ s.Cached b) (hu : Used s.view b) :
    Calm s ((s.setPage b (some ⟨s.disk b, false⟩)).mark b false) := by
  have hcached : ∀ c, c ≠ b →
      (((s.setPage b (some ⟨s.disk b, false⟩)).mark b false).Cached c ↔ s.Cached c) := by
    intro c hcb
    simp [Server.Cached, setPage, mark, hcb]
  refine ⟨⟨fun c hcc => ?_, rfl, rfl⟩, ?_, fun c hcc => ?_⟩
  · by_cases hcb : c = b
    · exact absurd (hcb ▸ hcc) hc
    · exact (hcached c hcb).mpr hcc
  · funext c
    by_cases hcb : c = b
    · subst hcb
      have hnone : s.cache c = none := by simpa [Server.Cached] using hc
      simp [view, setPage, mark, hnone]
    · simp [view, setPage, mark, hcb]
  · by_cases hcb : c = b
    · exact .inr (hcb ▸ hu)
    · exact .inl ((hcached c hcb).mp hcc)

/-- Writing a cached block changes the disk only. -/
theorem calm_ideWrite {p : Page} (hp : s.cache b = some p) :
    Calm s (({ s with disk := update s.disk b p.data }).mark b false) := by
  refine ⟨⟨fun _ h => h, rfl, rfl⟩, ?_, fun _ h => .inl h⟩
  funext c
  by_cases hcb : c = b
  · subst hcb
    simp [view, mark, hp]
  · simp [view, mark, hcb]

theorem wp_writeBlock {Q : Unit → Server → Prop} (hb : b < DISKMAX / BLOCK_SIZE)
    (hc : s.Cached b) (h : ∀ t, Calm s t → (∀ c, t.Cached c → s.Cached c) → Q () t) :
    wp (writeBlock b) E X Q s := by
  obtain ⟨_, hp⟩ := Option.isSome_iff_exists.mp hc
  refine wp_bind.mpr (wp_blockIsMapped hb ?_)
  rw [hp]
  exact h _ (calm_ideWrite hp) (fun _ hc => hc)

theorem readBlock_spec (hs : Sound s kept) (hb : Used s.view b) : wp (readBlock b) E
      (fun e t => e = .noMem ∧ ¬ (s.Cached b ∨ s.mem s.asked = true) ∧ Calm s t)
      (fun _ t => Calm s t ∧ t.Cached b) s := by
  refine wp_bind.mpr ?_
  refine (hs.wp_checks hb (E := E) (Q := fun _ t => t = s) rfl).post ?_
  rintro _ t ht
  refine ht.bind ?_
  rintro _ t rfl
  refine wp_bind.mpr (wp_blockIsMapped (hs.lt_of_used hb) ?_)
  cases hp : t.cache b with
  | some =>
    refine ⟨.refl t, ?_⟩
    unfold Server.Cached
    rw [hp]
    rfl
  | none =>
    have hc : ¬ t.Cached b := by simp [Server.Cached, hp]
    refine wp_bind.mpr (wp_memAlloc ?_ (fun hm => ⟨rfl, fun h => h.elim hc hm, calm_ask t⟩))
    refine ⟨(calm_ask t).trans (calm_ideRead (s := { t with asked := t.asked + 1 }) hc hb), ?_⟩
    simp [Server.Cached, setPage, mark]

/-! ### Taking a block from the bitmap -/

/-- No block marked free has an old page in the cache, unless it is of zeros. -/
def CleanFree (s : Server) : Prop :=
  ∀ b, b < diskSize s.view → Unused s.view b → s.Cached b → s.view b = Block.zero

/-- The block that `alloc_block` takes next. -/
structure FirstFree (v : View) (b : Nat) : Prop where
  lo : 3 ≤ b
  hi : b < diskSize v
  unused : Unused v b
  first : ∀ c, 3 ≤ c → c < b → ¬ Unused v c

/-- At most empty places of files have been filled, and the fields `f_dir` of
files set to their directories. -/
structure Fill (s t : Server) (kept : Nat → Prop) : Prop extends Grown s t where
  sound : Sound t kept
  kin : Kin t.Cached s.view t.view
  clean : CleanFree s → CleanFree t
  refs : ∀ g p, Slotted s.view g → g.ref s.view p ≠ 0 → g.ref t.view p = g.ref s.view p
  live : ∀ g, Slotted s.view g → (g.live t.view ↔ g.live s.view)

theorem Fill.disk (h : Fill s t kept) : diskSize t.view = diskSize s.view := h.kin.disk

theorem Fill.trans (h : Fill s t kept) (h' : Fill t u kept') : Fill s u kept' where
  toGrown := h.toGrown.trans h'.toGrown
  sound := h'.sound
  kin := h.kin.trans h'.kin h'.cached
  clean := fun hs => h'.clean (h.clean hs)
  refs := by
    intro g p hg hne
    have heq := h.refs g p hg hne
    rw [h'.refs g p (h.kin.slots g hg) (by rw [heq]; exact hne), heq]
  live := fun g hg => (h'.live g (h.kin.slots g hg)).trans (h.live g hg)

/-- No place of a file has changed at all. -/
structure Quiet (s t : Server) (kept : Nat → Prop) : Prop extends Fill s t kept where
  same : ∀ g p, Slotted s.view g → g.ref t.view p = g.ref s.view p

theorem Quiet.trans (h : Quiet s t kept) (h' : Quiet t u kept') : Quiet s u kept' where
  toFill := h.toFill.trans h'.toFill
  same := fun g p hg => (h'.same g p (h.kin.slots g hg)).trans (h.same g p hg)

theorem Sound.quiet_of_calm (hs : Sound s kept) (h : Calm s t) : Quiet s t kept where
  toGrown := h.toGrown
  sound := hs.of_calm h
  kin := h.view ▸ .refl _
  clean := by
    intro hclean b hlt hun hc
    rw [h.view] at hlt hun ⊢
    rcases h.loaded b hc with hc | hu
    · exact hclean b hlt hun hc
    · exact absurd hun hu.2
  refs := by
    intro g p _ _
    rw [h.view]
  live := by
    intro g _
    rw [h.view]
  same := by
    intro g p _
    rw [h.view]

/-- A change of a block outside of the tree. -/
theorem Sound.quiet_outside (hs : Sound s kept) (hb : Outside s.view b) (hg : Grown s t)
    (hv : ∀ c, c ≠ b → t.view c = s.view c) (ho : Owned t.view kept')
    (hclean : CleanFree s → CleanFree t) : Quiet s t kept' := by
  have hsame := hb.sameTree hv
  have ha := hsame.alike hs.owned
  exact {
    toGrown := hg
    sound := hs.of_grown hg hsame.disk ho
    kin := hb.kin hs.owned hv
    clean := hclean
    refs := fun g p hgs _ => ha.ref g p hgs (fun hex => hex)
    live := ha.live
    same := fun g p hgs => ha.ref g p hgs (fun hex => hex) }

theorem kept_restore (hb : ¬ kept b) : (fun c => (kept c ∨ c = b) ∧ c ≠ b) = kept := by
  funext c
  apply propext
  constructor
  · rintro ⟨hk | heq, hne⟩
    · exact hk
    · exact absurd heq hne
  · exact fun hk => ⟨.inl hk, fun hcb => hb (hcb ▸ hk)⟩

namespace Sound

theorem not_reserved_of_unused (hs : Sound s kept) (hb : Unused s.view b) :
    ¬ kept b ∧ ¬ Reserved s.view b := by
  have hk : ¬ kept b := fun hk => (hs.owned.holding.kept_used b hk).2 hb
  exact ⟨hk, fun hr => hk (hs.owned.reserved b hr)⟩

/-- The bit of a block is cleared: the block is kept aside. -/
theorem quiet_take (hs : Sound s kept) (hb : b < diskSize s.view) (hfree : Unused s.view b)
    (h : Calm (s.put (bitmapWord b)
      (getAt s.view (bitmapWord b) &&& (0xffffffff ^^^ 1 <<< (b % 32)))) t) :
    Quiet s t (fun c => kept c ∨ c = b) := by
  have hout := hs.owned.bitmap_outside hb
  have hview : t.view = setAt s.view (bitmapWord b)
      (getAt s.view (bitmapWord b) &&& (0xffffffff ^^^ 1 <<< (b % 32))) := by
    rw [h.view, view_put]
  have hsame := hout.sameTree (setAt_other s.view (bitmapWord b)
    (getAt s.view (bitmapWord b) &&& (0xffffffff ^^^ 1 <<< (b % 32))))
  have hunused : ∀ c, Unused t.view c ↔ Unused s.view c ∧ c ≠ b := by
    intro c
    rw [hview]
    exact unused_setUsed
  apply hs.quiet_outside hout ((grown_put s _ _).trans h.toGrown)
  · rw [hview]
    exact setAt_other _ _ _
  · rw [← hview] at hsame
    exact hs.owned.take hsame hb hfree (fun c _ => hunused c)
  · intro hclean c hlt hun hc
    rw [hview, hsame.disk] at hlt
    obtain ⟨hun, hcb⟩ := (hunused c).mp hun
    have hne : c ≠ (bitmapWord b).blk := by
      rintro rfl
      have hr := Owned.bitmap_reserved s.view hb
      exact (hs.owned.holding.kept_used _ (hs.owned.reserved _ hr)).2 hun
    have hcs : s.Cached c := by
      rcases h.loaded c hc with hc | hu
      · exact ((s.cached_change _ _ c).mp hc).resolve_left hne
      · rw [view_put] at hu
        exact absurd (unused_setUsed.mpr ⟨hun, hcb⟩) hu.2
    rw [hview, setAt_other _ _ _ c hne]
    exact hclean c hlt hun hcs

/-- The bit of a block kept aside is set again. -/
theorem quiet_drop (hs : Sound s kept) (hb : kept b) (hr : ¬ Reserved s.view b)
    (hc : ¬ s.Cached b) :
    Quiet s (s.put (bitmapWord b) (getAt s.view (bitmapWord b) ||| 1 <<< (b % 32)))
      (fun c => kept c ∧ c ≠ b) := by
  have hlt := (hs.owned.holding.kept_used b hb).1
  have hout := hs.owned.bitmap_outside hlt
  have hsame := hout.sameTree (setAt_other s.view (bitmapWord b)
    (getAt s.view (bitmapWord b) ||| 1 <<< (b % 32)))
  apply hs.quiet_outside hout (grown_put s _ _)
  · rw [view_put]
    exact setAt_other _ _ _
  · rw [view_put]
    exact hs.owned.drop hsame hb hr (fun _ _ => unused_setFree)
  · intro hclean c hlt' hun hcc
    rw [view_put] at hlt' hun ⊢
    rw [hsame.disk] at hlt'
    have hne : c ≠ (bitmapWord b).blk := by
      rintro rfl
      have hk := hs.owned.reserved _ (Owned.bitmap_reserved s.view hlt)
      rcases unused_setFree.mp hun with hun | heq
      · exact (hs.owned.holding.kept_used _ hk).2 hun
      · exact hr (heq ▸ Owned.bitmap_reserved s.view hlt)
    have hcs : s.Cached c := ((s.cached_change _ _ c).mp hcc).resolve_left hne
    rw [setAt_other _ _ _ c hne]
    rcases unused_setFree.mp hun with hun | rfl
    · exact hclean c hlt' hun hcs
    · exact absurd hcs hc

/-- A block kept aside gets a new page of zeros. -/
theorem quiet_fresh (hs : Sound s kept) (hb : kept b) (hr : ¬ Reserved s.view b) :
    Quiet s (s.change b Block.zero) kept := by
  have h1 : b ≠ 1 := by
    rintro rfl
    exact hr (Nat.lt_of_lt_of_le Nat.one_lt_two (Nat.le_add_right _ _))
  have hout := hs.owned.outside_of_kept hb h1
  have hv : ∀ c, c ≠ b → (s.change b Block.zero).view c = s.view c := by
    intro c hc
    rw [view_change]
    exact update_of_ne hc _ _
  have hunused : ∀ c, c < diskSize s.view →
      (Unused (s.change b Block.zero).view c ↔ Unused s.view c) := by
    refine Owned.unused_congr (fun c hc => hv _ ?_)
    rintro rfl
    exact hr (Owned.bitmap_reserved s.view hc)
  apply hs.quiet_outside hout (grown_change s _ _) hv
  · exact hs.owned.same (hout.sameTree hv) hunused
  · intro hclean c hlt hun hcc
    rw [(hout.sameTree hv).disk] at hlt
    have hun' := (hunused c hlt).mp hun
    have hne : c ≠ b := fun hcb => (hs.owned.holding.kept_used c (hcb ▸ hb)).2 hun'
    rw [hv c hne]
    exact hclean c hlt hun' (((s.cached_change _ _ c).mp hcc).resolve_left hne)

end Sound

theorem wp_freeBlock (hs : Sound s kept) (hb : b < diskSize s.view) (h0 : b ≠ 0)
    {Q : Unit → Server → Prop}
    (h : Q () (s.put (bitmapWord b) (getAt s.view (bitmapWord b) ||| 1 <<< (b % 32)))) :
    wp (freeBlock b) E X Q s := by
  refine wp_bind.mpr (hs.wp_nblocks (wp_neg ?_ ?_))
  · rintro (h | h)
    · exact h0 h
    · exact Nat.not_le.mpr hb h
  · refine wp_bind.mpr (hs.wp_bitmap hb ?_)
    exact wp_store (hs.bitmap_lt hb) (hs.bitmap b hb) (Sound.bitmapWord_idx b) h

theorem allocFrom_spec (hs : Sound s kept) (n : Nat) (b : Nat) (hlo : 3 ≤ b)
    (hn : n = diskSize s.view - b) (hfirst : ∀ c, 3 ≤ c → c < b → ¬ Unused s.view c) :
    wp (allocFrom n b) E (fun _ t => t = s)
      (fun c t => FirstFree s.view c ∧ Quiet s t (fun d => kept d ∨ d = c) ∧
        (t.Cached c → s.Cached c) ∧ (∀ d, Unused s.view d → t.view d = s.view d)) s := by
  induction n generalizing b with
  | zero => exact rfl
  | succ n ih =>
    have hb : b < diskSize s.view := by omega
    refine wp_bind.mpr (hs.wp_bitmap hb ?_)
    by_cases hun : Unused s.view b
    · refine wp_pos hun ?_
      refine wp_bind.mpr (wp_store (hs.bitmap_lt hb) (hs.bitmap b hb) (Sound.bitmapWord_idx b) ?_)
      have hblk : b / BLOCK_SIZE_BIT + 2 = (bitmapWord b).blk := by
        simp only [bitmapWord, BLOCK_SIZE_BIT, BLOCK_SIZE]
        omega
      rw [hblk]
      refine wp_bind.mpr (wp_writeBlock (hs.bitmap_lt hb) ?_ (fun t ht hback => ?_))
      · exact (s.cached_change _ _ _).mpr (.inl rfl)
      · have hne : ∀ d, Unused s.view d → d ≠ (bitmapWord b).blk := by
          rintro d hd rfl
          exact (hs.not_reserved_of_unused hd).2 (Owned.bitmap_reserved s.view hb)
        refine ⟨⟨hlo, hb, hun, hfirst⟩, hs.quiet_take hb hun ht, fun hc => ?_, fun d hd => ?_⟩
        · exact ((s.cached_change _ _ b).mp (hback b hc)).resolve_left (hne b hun)
        · rw [ht.view, view_put]
          exact setAt_other _ _ _ d (hne d hd)
    · refine wp_neg hun (ih (b + 1) (by omega) (by omega) ?_)
      intro c hc hcb
      by_cases heq : c = b
      · exact heq ▸ hun
      · exact hfirst c hc (by omega)

theorem wp_mapBlock {Q : Unit → Server → Prop} (hb : b < DISKMAX / BLOCK_SIZE)
    (hold : s.Cached b → Q () s)
    (hnew : ¬ s.Cached b → Q () ({ s with asked := s.asked + 1 }.change b Block.zero))
    (hfail : ¬ s.Cached b → X .noMem { s with asked := s.asked + 1 }) :
    wp (mapBlock b) E X Q s := by
  refine wp_bind.mpr (wp_blockIsMapped hb ?_)
  cases hp : s.cache b with
  | some => exact hold (by simp [Server.Cached, hp])
  | none =>
    have hc : ¬ s.Cached b := by simp [Server.Cached, hp]
    exact wp_bind.mpr (wp_memAlloc (hnew hc) (fun _ => hfail hc))

/-- `alloc_block` gives the first free block with a page: a new one of zeros or
an old one as it was. After an error nothing is taken. -/
theorem allocBlock_spec (hs : Sound s kept) : wp allocBlock E (fun _ t => Quiet s t kept)
      (fun b t => FirstFree s.view b ∧ Quiet s t (fun c => kept c ∨ c = b) ∧ t.Cached b ∧
        (t.view b = Block.zero ∨ s.Cached b ∧ t.view b = s.view b)) s := by
  refine wp_bind.mpr (wp_bind.mpr (hs.wp_nblocks ?_))
  refine (allocFrom_spec hs (E := E) _ 3 (Nat.le_refl 3) rfl (fun c hc hlt => ?_)).imp ?_ ?_
  · omega
  · rintro _ t rfl
    exact hs.quiet_of_calm (.refl t)
  rintro b t ⟨hfirst, hfill, hback, hsame⟩
  obtain ⟨hnk, hnr⟩ := hs.not_reserved_of_unused hfirst.unused
  have ht := hfill.sound
  have hkb : kept b ∨ b = b := .inr rfl
  have hnr' : ¬ Reserved t.view b := by
    unfold Reserved at hnr ⊢
    rw [hfill.disk]
    exact hnr
  refine wp_bind.mpr (wp_attempt.mpr ?_)
  apply wp_mapBlock (ht.lt_of_used (ht.owned.holding.kept_used b hkb))
  · intro hc
    exact ⟨hfirst, hfill, hc, .inr ⟨hback hc, hsame b hfirst.unused⟩⟩
  · intro hc
    have hask := ht.quiet_of_calm (calm_ask t)
    have hfresh := hask.sound.quiet_fresh hkb (b := b) hnr'
    refine ⟨hfirst, (hfill.trans hask).trans hfresh, ?_, .inl ?_⟩
    · exact (cached_change _ _ _ b).mpr (.inl rfl)
    · rw [view_change]
      exact update_self _ _ _
  · intro hc
    have hask := ht.quiet_of_calm (calm_ask t)
    have hb0 : b ≠ 0 := by
      have := hfirst.lo
      omega
    have hlt : b < diskSize t.view := by
      rw [hfill.disk]
      exact hfirst.hi
    refine wp_bind.mpr (wp_freeBlock hask.sound hlt hb0 ?_)
    have hdrop := hask.sound.quiet_drop hkb (b := b) hnr' hc
    have hall := (hfill.trans hask).trans hdrop
    rw [kept_restore hnk] at hall
    exact hall

end MosSmp.Fs
