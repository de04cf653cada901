import MosSmp.Fs.Places

/-!
The functions that write blocks back. Whatever they do to the disk and to the
dirty bits, every block stays as the server sees it.
-/

namespace MosSmp.Fs

open Lib Prog Relation FilePtr

variable {s t : Server} {kept : Nat → Prop} {E : Stop → Prop} {X : FsErr → Server → Prop}
  {b : Nat} {F d : FilePtr}

theorem calm_dirty {p : Page} (hp : s.cache b = some p) :
    Calm s (s.setPage b (some ⟨p.data, true⟩)) := by
  have hcached : ∀ c, (s.setPage b (some ⟨p.data, true⟩)).Cached c ↔ s.Cached c := by
    intro c
    by_cases hcb : c = b
    · simp [Server.Cached, Server.setPage, hcb, hp]
    · simp [Server.Cached, Server.setPage, hcb]
  refine ⟨⟨fun c hc => (hcached c).mpr hc, rfl, rfl⟩, ?_, fun c hc => .inl ((hcached c).mp hc)⟩
  funext c
  by_cases hcb : c = b
  · simp [Server.view, Server.setPage, hcb, hp]
  · simp [Server.view, Server.setPage, hcb]

section

variable (hb : b < DISKMAX / BLOCK_SIZE)
include hb

theorem wp_blockIsDirty {Q : Bool → Server → Prop}
    (h : ∀ dirty, (dirty = true → s.Cached b) → Q dirty s) : wp (blockIsDirty b) E X Q s := by
  refine wp_bind.mpr (wp_blockIsMapped hb ?_)
  cases hp : s.cache b with
  | none => exact h false (fun hf => by cases hf)
  | some p => exact h p.dirty (fun _ => by simp [Server.Cached, hp])

/-- The body of the loops of `file_flush` and `fs_sync`. -/
theorem writeIfDirty_calm :
    wp (do
        let dirty ← blockIsDirty b
        when (dirty = true) (writeBlock b)) E X (fun _ t => Calm s t) s := by
  refine wp_bind.mpr (wp_blockIsDirty hb (fun dirty hc => ?_))
  apply wp_when
  · exact fun hd => wp_writeBlock hb (hc hd) (fun _ ht _ => ht)
  · exact fun _ => .refl s

theorem dirtyBlock_calm : wp (dirtyBlock b) E (fun _ t => Calm s t) (fun _ t => Calm s t) s := by
  refine wp_bind.mpr (wp_blockIsMapped hb ?_)
  cases hp : s.cache b with
  | none => exact .refl s
  | some p =>
    by_cases hd : p.dirty = true
    · exact wp_pos hd (.refl s)
    · exact wp_neg hd (calm_dirty hp)

end

section

variable (hs : Sound s kept)
include hs

theorem Sound.slot_lt (hF : Reach s.view F) {i : Nat} (hne : F.slot s.view i ≠ 0) :
    F.slot s.view i < DISKMAX / BLOCK_SIZE :=
  hs.lt_of_used (hs.owned.holding.ref_used F (.slot i) hF hne)

theorem fileDirty_spec (hF : Reach s.view F) (hc : s.Cached F.blk) (offset : Nat) :
    wp (fileDirty F offset) E (fun _ t => Calm s t) (fun _ t => Calm s t) s := by
  refine (fileMapBlock_read_spec hs hF hc _).bind ?_
  rintro _ t ⟨hcalm, rfl, hne⟩
  exact (dirtyBlock_calm (hs.slot_lt hF hne)).imp
    (fun _ _ ht => hcalm.trans ht) (fun _ _ ht => hcalm.trans ht)

theorem fileFlush_spec (hF : Reach s.view F) (hc : s.Cached F.blk) :
    wp (fileFlush F) E (fun _ _ => False) (fun _ t => Calm s t) s := by
  refine wp_bind.mpr (hs.wp_word hF.slotted hc (by decide) ?_)
  refine wp_each (I := fun _ t => Calm s t) (fun bno _ t ht => ?_) _ (.refl s)
  have hs' := hs.of_calm ht
  have hF' : Reach t.view F := ht.view ▸ hF
  refine (fileMapBlock_read_spec hs' hF'
    (ht.cached _ hc) bno).attempt (fun _ _ hu => ht.trans hu) ?_
  rintro _ _ ⟨hu, rfl, hne⟩
  exact (writeIfDirty_calm (hs'.slot_lt hF' hne)).post (fun _ _ hw => (ht.trans hu).trans hw)

/-- A structure of size 0 has nothing to flush. -/
theorem fileFlush_empty (hF : Slotted s.view F) (hc : s.Cached F.blk) (hsize : F.size s.view = 0) :
    wp (fileFlush F) E (fun _ _ => False) (fun _ t => t = s) s := by
  refine wp_bind.mpr (hs.wp_word hF hc (by decide) ?_)
  rw [show getAt s.view (F.word 32) = 0 from hsize]
  exact rfl

end

/-- The field `f_dir` is not set or holds the address of a directory in the
cache. -/
def Fathered (s : Server) (F : FilePtr) : Prop :=
  F.parent s.view = 0 ∨
    ∃ d, Reach s.view d ∧ d.type s.view = FTYPE_DIR ∧ s.Cached d.blk ∧ F.parent s.view = d.addr

theorem FilePtr.ofAddr_addr (hd : d.off < BLOCK_SIZE / 4) : ofAddr d.addr = some d := by
  have hoff : d.off < 1024 := hd
  unfold ofAddr addr
  rw [if_pos (by simp only [DISKMAP, BLOCK_SIZE]; omega)]
  obtain ⟨_, _⟩ := d
  simp only [Option.some.injEq, mk.injEq]
  simp only [DISKMAP, BLOCK_SIZE] at hoff ⊢
  omega

section

variable (hs : Sound s kept)
include hs

theorem wp_parentDir (hF : Slotted s.view F) (hc : s.Cached F.blk) (hp : Fathered s F)
    {Q : Option FilePtr → Server → Prop} (hnone : Q none s)
    (hsome : ∀ d, Reach s.view d → s.Cached d.blk → Q (some d) s) : wp (parentDir F) E X Q s := by
  refine wp_bind.mpr (hs.wp_word hF hc (by decide) ?_)
  rcases hp with hzero | ⟨d, hd, _, hcd, haddr⟩
  · exact wp_pos hzero hnone
  · have hoff := hd.slotted.off_le
    have hne : d.addr ≠ 0 := by
      simp only [addr, DISKMAP]
      omega
    rw [show getAt s.view (F.word 45) = d.addr from haddr]
    refine wp_neg hne ?_
    rw [ofAddr_addr (by omega)]
    exact hsome d hd hcd

theorem flushDir_spec (hF : Slotted s.view F) (hc : s.Cached F.blk) (hp : Fathered s F) :
    wp (flushDir F) E (fun _ _ => False) (fun _ t => Calm s t) s := by
  refine wp_bind.mpr (wp_parentDir hs hF hc hp ?_ ?_)
  · exact .refl s
  · exact fun d hd hcd => fileFlush_spec hs hd hcd

/-- The loop of `file_close` marks at most one block dirty. -/
theorem dirtyIfHolds_calm (hd : Reach s.view d) (hc : s.Cached d.blk) (i : Nat) :
    wp (dirtyIfHolds d F i) E (fun _ _ => False) (fun _ t => Calm s t) s := by
  refine (fileMapBlock_read_spec hs hd hc i).attempt (fun _ _ ht => ht) ?_
  rintro _ t ⟨ht, rfl, hne⟩
  have hs' := hs.of_calm ht
  have hd' : Reach t.view d := ht.view ▸ hd
  have hslot : d.slot s.view i = d.slot t.view i := by rw [ht.view]
  rw [hslot] at hne ⊢
  have hused := hs'.owned.holding.ref_used d (.slot i) hd' hne
  refine (readBlock_spec hs' hused).attempt ?_ ?_
  · rintro _ u ⟨_, _, hu⟩
    exact ht.trans hu
  · rintro _ u ⟨hu, _⟩
    by_cases hblk : d.slot t.view i = F.blk
    · refine wp_pos hblk (wp_bind.mpr (wp_attempt.mpr ?_))
      exact (dirtyBlock_calm (hs'.slot_lt hd' hne)).imp
        (fun _ _ hw => (ht.trans hu).trans hw) (fun _ _ hw => (ht.trans hu).trans hw)
    · exact wp_neg hblk (ht.trans hu)

theorem fileClose_spec (hF : Reach s.view F) (hc : s.Cached F.blk) (hp : Fathered s F) :
    wp (fileClose F) E (fun _ _ => False) (fun _ t => Calm s t) s := by
  refine (fileFlush_spec hs hF hc).bind ?_
  intro _ t ht
  have hp' : Fathered t F := by
    unfold Fathered
    rw [ht.view]
    exact hp.imp_right (fun ⟨d, hd, htd, hcd, ha⟩ => ⟨d, hd, htd, ht.cached _ hcd, ha⟩)
  have hs' := hs.of_calm ht
  have hF' : Reach t.view F := ht.view ▸ hF
  refine wp_bind.mpr (wp_parentDir hs' hF'.slotted (ht.cached _ hc) hp' ?_ ?_)
  · exact ht
  intro d hd hcd
  refine wp_bind.mpr (hs'.wp_word hd.slotted hcd (by decide) (wp_bind.mpr ?_))
  refine (wp_search (I := fun _ u => Calm t u) (R := fun _ u => Calm t u)
    (fun i _ u hu => ?_) (fun _ hu => hu) _ (.refl t)).post (fun _ u hu => ?_)
  · refine (dirtyIfHolds_calm (hs'.of_calm hu) (hu.view ▸ hd) (hu.cached _ hcd) i).post ?_
    intro r _ hw
    cases r <;> exact hu.trans hw
  exact (fileFlush_spec (hs'.of_calm hu) (hu.view ▸ hd) (hu.cached _ hcd)).post
    (fun _ _ hw => (ht.trans hu).trans hw)

end

end MosSmp.Fs
