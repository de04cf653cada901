import MosSmp.Fs.Requests

/-!
The file server over its runs. In a run of legal events the blocks of the disk
stay owned by the tree; without the conditions a block can be lost for good: a
block mapped past the end of a file is not among those that `file_remove` gives
back. A request that is legal and prompt is answered once and leaves the lock
free; `FSREQ_SYNC` never is, since `fs_sync` takes the lock that `serve` holds.
-/

namespace MosSmp.Fs

open Lib Prog Relation FilePtr

variable {s t : Server} {v : View} {f : FilePtr}

theorem running_of_legal (hreach : (server Formatted).ReachableUnder Legal s) : Running s := by
  induction hreach with
  | init h =>
    obtain ⟨_, _, hformatted, hmount⟩ := h
    exact (running_mount hformatted hmount).1
  | step _ _ hlegal hstep ih => exact ih.step hlegal hstep

/-! ### A small disk -/

/-- Sixteen blocks with an empty root directory. -/
def image (b k : Nat) : Nat :=
  if b = 1 then
    if k = 0 then FS_MAGIC else if k = 1 then 16 else if k = 35 then FTYPE_DIR else 0
  else if b = 2 ∧ k = 0 then 0xfff8 else 0

theorem reach_of_empty_root (hsize : root.size v = 0) (h : Reach v f) : f = .root := by
  induction h with
  | refl => rfl
  | tail _ hc ih =>
    subst ih
    obtain ⟨_, ⟨i, _, hi, _⟩, _⟩ := hc
    unfold nblock at hi
    rw [hsize] at hi
    exact absurd hi (Nat.not_lt_zero i)

theorem root_ref_image (p : Place) : root.ref image p = 0 := by
  have hind : root.indirect image = 0 := rfl
  cases p with
  | indirect => exact hind
  | slot i =>
    change root.slot image i = 0
    unfold slot
    by_cases hi : i < NDIRECT
    · rw [if_pos hi]
      have hi10 : i < 10 := hi
      change image 1 (2 + (34 + i)) = 0
      have h1 : 2 + (34 + i) ≠ 1 := by omega
      have h35 : 2 + (34 + i) ≠ 35 := by omega
      simp [image, h1, h35]
    · rw [if_neg hi, if_neg (fun hc => hc.2 hind)]

theorem used_image_iff (b : Nat) : Used image b ↔ Reserved image b := by
  have hsize : diskSize image = 16 := rfl
  have hres : Reserved image b ↔ b < 3 := Iff.rfl
  rw [hres]
  unfold Used
  rw [hsize]
  constructor
  · rintro ⟨hlt, hn⟩
    by_contra hb
    have hall : ∀ b, b < 16 → 3 ≤ b →
        (getAt image (bitmapWord b)).testBit (b % 32) = true := by decide
    exact hn (hall b hlt (Nat.not_lt.mp hb))
  · intro hb
    have hall : ∀ b, b < 3 → (getAt image (bitmapWord b)).testBit (b % 32) = false := by decide
    refine ⟨by omega, fun hu => ?_⟩
    have hu : (getAt image (bitmapWord b)).testBit (b % 32) = true := hu
    rw [hall b hb] at hu
    cases hu

theorem owned_image : Owned image (Reserved image) := by
  have hroot : ∀ f, Reach image f → f = .root := fun f => reach_of_empty_root rfl
  have hempty : ∀ f p, Reach image f → f.ref image p = 0 := by
    intro f p hf
    rw [hroot f hf]
    exact root_ref_image p
  exact {
    holding := {
      ref_used := fun f p hf hne => absurd (hempty f p hf) hne
      once := fun f p _ _ hf _ hne _ => absurd (hempty f p hf) hne
      apart := fun f p hf hne => absurd (hempty f p hf) hne
      kept_used := fun b hb => (used_image_iff b).mpr hb
      covered := fun b hb => .inl ((used_image_iff b).mp hb) }
    reserved := fun _ hb => hb
    bound := by decide
    root := rfl
    within := fun f i hf _ => hempty f (.slot i) hf
    regular := fun f hf ht => absurd rfl (hroot f hf ▸ ht)
    whole := fun f hf _ => by
      rw [hroot f hf]
      exact Nat.dvd_zero _
    unused := fun d f hd _ hs _ => by
      rw [hroot d hd] at hs
      obtain ⟨i, _, hi, _⟩ := hs
      exact absurd hi (Nat.not_lt_zero i) }

/-- Memory for every allocation. -/
def enough : Nat → Bool := fun _ => true

def mounted : Server :=
  (mount image enough).getD (powerOn image enough)

theorem mount_image : mount image enough = some mounted := by
  have hsome : (mount image enough).isSome = true := by decide +kernel
  obtain ⟨_, hs⟩ := Option.isSome_iff_exists.mp hsome
  unfold mounted
  rw [hs]
  rfl

theorem mounted_init : (server Formatted).init mounted :=
  ⟨image, enough, ⟨owned_image, fun _ => rfl⟩, mount_image⟩

/-- The path `/a`. -/
def pathA : List Byte := [47, 97]

theorem mounted_mayOpen : MayOpen (mounted.entered enough) pathA O_CREAT := by
  have hclean : CleanFree (mounted.entered enough) := by
    intro b hlt hun hc
    have hsize : diskSize (mounted.entered enough).view = 16 := by decide +kernel
    rw [hsize] at hlt
    have hall : ∀ b, b < 16 → ((getAt (mounted.entered enough).view (bitmapWord b)).testBit
        (b % 32) && ((mounted.entered enough).cache b).isSome) = false := by decide +kernel
    have hb := hall b hlt
    rw [show (getAt (mounted.entered enough).view (bitmapWord b)).testBit (b % 32) = true from hun,
      show ((mounted.entered enough).cache b).isSome = true from hc] at hb
    cases hb
  have hroot : root.size (mounted.entered enough).view = 0 := by decide +kernel
  refine ⟨.inl hclean, fun _ => ⟨.inl hclean, fun d hd _ => ?_⟩, fun h => absurd rfl h⟩
  rw [reach_of_empty_root hroot hd, hroot]
  decide

theorem mounted_legal : Legal mounted (.request 1 (.open pathA O_CREAT) enough) :=
  ⟨mounted_mayOpen, fun _ _ hid => by cases hid⟩

/-! ### Ownership of blocks -/

theorem blocksOwned_of_legal (hreach : (server Formatted).ReachableUnder Legal s) :
    BlocksOwned s.view :=
  (running_of_legal hreach).sound.owned.blocksOwned

/-- After a file has been created. -/
theorem blocksOwned_create : ∃ s, (server Formatted).ReachableUnder Legal s ∧ s.replies.length = 1 ∧
      BlocksOwned s.view := by
  have hsome : (mounted.step (.request 1 (.open pathA O_CREAT) enough)).any
      (fun s => s.replies.length == 1) = true := by decide +kernel
  obtain ⟨s, hs, hone⟩ := (Option.any_eq_true ..).mp hsome
  have hreach : (server Formatted).ReachableUnder Legal s :=
    .step (.request 1 (.open pathA O_CREAT) enough) (.init mounted_init) mounted_legal hs
  exact ⟨s, hreach, beq_iff_eq.mp hone, blocksOwned_of_legal hreach⟩

/-- A root directory with one block in which no structure is in use. -/
structure RootOnly (v : View) : Prop where
  size : root.size v = BLOCK_SIZE
  first : root.direct v 0 = 3
  others : ∀ i, i < NDIRECT → i ≠ 0 → root.direct v i = 0
  indirect : root.indirect v = 0
  dead : ∀ j, j < FILE2BLK → ¬ (inBlock 3 j).live v

theorem RootOnly.slot (h : RootOnly v) (i : Nat) : root.slot v i = if i = 0 then 3 else 0 := by
  unfold FilePtr.slot
  by_cases hi : i < NDIRECT
  · rw [if_pos hi]
    by_cases h0 : i = 0
    · rw [if_pos h0, h0, h.first]
    · rw [if_neg h0, h.others i hi h0]
  · have h0 : i ≠ 0 := by
      rintro rfl
      exact hi (by decide)
    rw [if_neg hi, if_neg (fun hc => hc.2 h.indirect), if_neg h0]

theorem RootOnly.reach (h : RootOnly v) (hf : Reach v f) : f = .root := by
  induction hf with
  | refl => rfl
  | tail _ hc ih =>
    subst ih
    obtain ⟨_, ⟨i, j, hi, _, hj, rfl⟩, hl⟩ := hc
    have hi0 : i = 0 := by
      unfold nblock at hi
      rw [h.size] at hi
      exact Nat.lt_one_iff.mp hi
    rw [h.slot, if_pos hi0] at hl
    exact absurd hl (h.dead j hj)

/-- A block marked used that no file names. -/
theorem RootOnly.not_blocksOwned (h : RootOnly v) (hused : Used v 4) (hsize : diskSize v = 16) :
    ¬ BlocksOwned v := by
  intro ho
  rcases ho.covered 4 hused with hres | ⟨_, p, hf, _, heq⟩
  · unfold Reserved at hres
    rw [hsize] at hres
    exact absurd hres (by decide)
  · rw [h.reach hf] at heq
    cases p with
    | indirect =>
      have hind : root.ref v .indirect = 0 := h.indirect
      rw [hind] at heq
      cases heq
    | slot i =>
      have hslot : root.ref v (.slot i) = if i = 0 then 3 else 0 := h.slot i
      rw [hslot] at heq
      split at heq <;> cases heq

/-- The first block of an empty file is mapped and the file removed: the block
stays marked used. -/
theorem leakedBlock_reachable : ∃ s, (server Formatted).Reachable s ∧ ¬ BlocksOwned s.view := by
  have hstart : (server Formatted).Reachable mounted := .init mounted_init
  obtain ⟨s, hs, hroot, hdead, hused, hsize⟩ := Machine.exists_reachableUnder_of_exec
    (P := fun s : Server => (root.size s.view = BLOCK_SIZE ∧ root.direct s.view 0 = 3 ∧
        (∀ i, i < NDIRECT → i ≠ 0 → root.direct s.view i = 0) ∧
        root.indirect s.view = 0) ∧
      (∀ j, j < FILE2BLK → ¬ (inBlock 3 j).live s.view) ∧
      (getAt s.view (bitmapWord 4)).testBit (4 % 32) = false ∧ diskSize s.view = 16)
    [.request 1 (.open pathA O_CREAT) enough, .request 1 (.map 0 0) enough,
      .request 1 (.remove pathA) enough]
    hstart (by decide +kernel)
  refine ⟨s, hs, ?_⟩
  have honly : RootOnly s.view := ⟨hroot.1, hroot.2.1, hroot.2.2.1, hroot.2.2.2, hdead⟩
  refine honly.not_blocksOwned ⟨by rw [hsize]; decide, fun hu => ?_⟩ hsize
  have hu : (getAt s.view (bitmapWord 4)).testBit (4 % 32) = true := hu
  rw [hused] at hu
  cases hu

/-! ### Replies -/

/-- The events of a run in which every handler ends. -/
def Prompt (s : Server) : Event → Prop
  | .request whom req mem => Legal s (.request whom req mem) ∧ PromptRequest (s.entered mem) req
  | .fill l w => Legal s (.fill l w)
  | .filefd i n => Legal s (.filefd i n)

theorem Prompt.legal {e : Event} (h : Prompt s e) : Legal s e := by
  cases e with
  | request => exact h.1
  | fill | filefd => exact h

theorem request_answered (hreach : (server Formatted).ReachableUnder Prompt s) (whom : Nat)
    (req : Request) (mem : Nat → Bool) (hprompt : Prompt s (.request whom req mem)) :
    s.lock = false ∧ ∃ t value page, s.step (.request whom req mem) = some t ∧
      t.replies = s.replies ++ [⟨whom, value, page⟩] ∧ t.lock = false ∧ t.reqva = false := by
  have hs := running_of_legal (hreach.mono (fun _ _ h => h.legal))
  have hserve := serve_spec (E := fun _ => False) hs whom hprompt.1 (.inr hprompt.2)
  refine ⟨hs.lock, ?_⟩
  obtain ⟨r, t, hrun⟩ := hserve.total
  cases r with
  | error => exact (hserve.error hrun).elim
  | ok =>
    obtain ⟨value, page, ht⟩ := hserve.value hrun
    refine ⟨t, value, page, ?_, ht.replies, ht.running.lock, ht.reqva⟩
    simp only [Server.step, hrun]

theorem request_answered_create : (server Formatted).ReachableUnder Prompt mounted ∧
      ∃ t value page, mounted.step (.request 1 (.open pathA O_CREAT) enough) = some t ∧
        t.replies = mounted.replies ++ [⟨1, value, page⟩] ∧ t.lock = false ∧ t.reqva = false :=
  ⟨.init mounted_init, (request_answered (.init mounted_init) 1 (.open pathA O_CREAT) enough
    ⟨mounted_legal, fun h => absurd rfl h⟩).2⟩

/-- `FSREQ_SYNC` to a server with a free lock does not end. -/
theorem sync_spins : ∃ s, (server Formatted).Reachable s ∧ s.lock = false ∧
      ∀ whom mem, serve whom .sync (s.receive mem) = .error .spin := by
  have hlock : mounted.lock = false := by decide +kernel
  refine ⟨mounted, .init mounted_init, hlock, fun whom mem => ?_⟩
  have hwp : wp (serve whom .sync) (fun i => i = .spin) (fun _ _ => False) (fun _ _ => False)
      (mounted.receive mem) := by
    refine wp_bind.mpr (wp_userSpinLock hlock (wp_bind.mpr (wp_bind.mpr ?_)))
    exact wp_bind.mpr (wp_userSpinLock_held rfl rfl)
  unfold wp at hwp
  split at hwp
  · next hrun => rw [hrun, hwp]
  · exact hwp.elim
  · exact hwp.elim

end MosSmp.Fs
