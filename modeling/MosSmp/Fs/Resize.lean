import MosSmp.Fs.Service

/-!
Changing the size of a file. As long as every file has its blocks below its
size, `file_set_size` ends with the new size and keeps it so. What can end the
server is the walk to a slot in an indirect block that the file does not have:
the size of a file is raised without any block, and lowered again.
-/

namespace MosSmp.Fs

open Lib Prog Relation

variable {s t : Server} {f : FilePtr} {mem : Nat → Bool} {fileid size : Nat}

/-- The file has nothing past the blocks that its size reaches into. -/
structure Tight (v : View) (f : FilePtr) : Prop where
  slots : ∀ i, f.extent v ≤ i → f.slot v i = 0
  indirect : f.extent v ≤ NDIRECT → f.indirect v = 0

/-- With nothing past its size, a file that has an indirect block or needs none
gets any size up to `MAXFILESIZE`, and has nothing past that. -/
theorem fileSetSize_returns (hreach : (server Formatted).ReachableUnder Legal s)
    (hopen : openLookup fileid s = .ok (.ok f, s))
    (hlegal : LegalRequest (s.entered mem) (.setSize fileid size))
    (htight : f.extent s.view ≤ NDIRECT → f.indirect s.view = 0)
    (hcut : size < f.size s.view → Truncatable (s.entered mem) f) :
    ∃ t, fileSetSize f size (s.entered mem) = .ok (.ok (), t) ∧ f.size t.view = size ∧
      Tight t.view f := by
  have hrunning := running_of_legal hreach
  have hsound := (hrunning.served mem).after.sound
  have hlook := openLookup_entered mem hopen
  obtain ⟨⟨hmax, htype⟩, htree⟩ := hlegal
  have htype := htype f hlook
  have hf : Handle (s.entered mem) f := by
    obtain ⟨_, _, hfile⟩ := openLookup_ok hlook
    exact (hrunning.served mem).handles fileid f hfile
  have hset := fileSetSize_spec (E := fun _ => False) hsound (htree fileid f rfl hlook) htype
    hf.cached (hf.fathered (hsound.owned.ne_root_of_regular htype)) hmax (.inr hcut)
  obtain ⟨_, t, hrun⟩ := hset.returns
  obtain ⟨hres, hsize, hind⟩ := hset.value hrun
  have hft := (hres.reach f).mpr (htree fileid f rfl hlook)
  exact ⟨t, hrun, hsize, fun i hi => hres.sound.owned.within f i hft hi, hind htight⟩

/-- The first structure in the first block of the root. -/
def fileA : FilePtr := .inBlock 3 0

/-- The regular file at the first structure of the root is open as file 0. -/
def OpenA (s : Server) : Prop :=
  (FilePtr.root.type s.view = FTYPE_DIR ∧ 0 < FilePtr.root.nblock s.view ∧
    FilePtr.root.slot s.view 0 = 3) ∧
  (fileA.live s.view ∧ fileA.type s.view ≠ FTYPE_DIR ∧ fileA.indirect s.view = 0) ∧
  (s.opentab 0).file = some fileA ∧ 1 < (s.opentab 0).pageref

instance decidableOpenA (s : Server) : Decidable (OpenA s) :=
  inferInstanceAs (Decidable (_ ∧ _))

theorem OpenA.reach (h : OpenA s) : Reach s.view fileA := by
  obtain ⟨⟨hdir, hblocks, hslot⟩, ⟨hlive, _⟩, _⟩ := h
  refine (reach_root s.view).child ⟨hdir, ⟨0, 0, hblocks, ?_, by decide, ?_⟩, hlive⟩
  · rw [hslot]
    decide
  · rw [hslot]
    rfl

theorem OpenA.lookup (h : OpenA s) : openLookup 0 s = .ok (.ok fileA, s) :=
  openLookup_of (by decide) h.2.2.2 h.2.2.1

theorem OpenA.legal (h : OpenA s) (mem : Nat → Bool) (size : Nat) (hmax : size ≤ MAXFILESIZE) :
    LegalRequest (s.entered mem) (.setSize 0 size) := by
  have hfile : ∀ f, openLookup 0 (s.entered mem) = .ok (.ok f, s.entered mem) → f = fileA := by
    intro f hf
    obtain ⟨_, _, hsome⟩ := openLookup_ok hf
    exact Option.some.inj (hsome.symm.trans h.2.2.1)
  refine ⟨⟨hmax, fun f hf => ?_⟩, fun id f hid hf => ?_⟩
  · rw [hfile f hf]
    exact h.2.1.2.1
  · obtain rfl : 0 = id := Option.some.inj hid
    rw [hfile f hf]
    exact h.reach

/-- A file of two blocks is cut down to one. -/
theorem fileSetSize_returns_cut :
    ∃ s t, (server Formatted).ReachableUnder Legal s ∧ fileA.size s.view = 5000 ∧
      fileSetSize fileA 100 (s.entered enough) = .ok (.ok (), t) ∧ fileA.size t.view = 100 ∧
      Tight t.view fileA := by
  have hruns : (mounted.step (.request 1 (.open pathA O_CREAT) enough)).any (fun s =>
      decide (OpenA s) && (s.step (.request 1 (.setSize 0 5000) enough)).any (fun s =>
        decide (OpenA s ∧ fileA.size s.view = 5000))) = true := by decide +kernel
  obtain ⟨s, hs, hP⟩ := (Option.any_eq_true ..).mp hruns
  rw [Bool.and_eq_true, decide_eq_true_eq] at hP
  obtain ⟨hopen, hnext⟩ := hP
  obtain ⟨u, hu, hQ⟩ := (Option.any_eq_true ..).mp hnext
  obtain ⟨hopen', hsize⟩ := of_decide_eq_true hQ
  have hcreated : (server Formatted).ReachableUnder Legal s :=
    .step (.request 1 (.open pathA O_CREAT) enough) (.init mounted_init) mounted_legal hs
  have hreach : (server Formatted).ReachableUnder Legal u :=
    .step (.request 1 (.setSize 0 5000) enough) hcreated (hopen.legal enough 5000 (by decide)) hu
  obtain ⟨t, hrun, hsize', htight⟩ := fileSetSize_returns hreach hopen'.lookup
    (hopen'.legal enough 100 (by decide)) (fun _ => hopen'.2.1.2.2) (fun _ => .inl (by
      show (fileA.size u.view + (BLOCK_SIZE - 1)) / BLOCK_SIZE ≤ NDIRECT
      rw [hsize]
      decide))
  exact ⟨u, t, hreach, hsize, hrun, hsize', htight⟩

/-- The size of an empty file is raised to eleven blocks and set back to 0. -/
theorem fileSetSize_panics_reachable :
    ∃ s, (server Formatted).Reachable s ∧ openLookup 0 s = .ok (.ok fileA, s) ∧
      fileA.size s.view = 11 * BLOCK_SIZE ∧
      fileSetSize fileA 0 (s.entered enough) = .error (.panicOn .notFound) := by
  have hstart : (server Formatted).Reachable mounted := .init mounted_init
  obtain ⟨s, hs, hopen, hsize, hpanic⟩ := Machine.exists_reachableUnder_of_exec
    (P := fun s : Server => OpenA s ∧ fileA.size s.view = 11 * BLOCK_SIZE ∧
      (match fileSetSize fileA 0 (s.entered enough) with
        | .error i => decide (i = .panicOn .notFound)
        | .ok _ => false) = true)
    [.request 1 (.open pathA O_CREAT) enough, .request 1 (.setSize 0 (11 * BLOCK_SIZE)) enough]
    hstart (by decide +kernel)
  refine ⟨s, hs, hopen.lookup, hsize, ?_⟩
  cases hrun : fileSetSize fileA 0 (s.entered enough) with
  | ok =>
    rw [hrun] at hpanic
    cases hpanic
  | error =>
    rw [hrun] at hpanic
    rw [of_decide_eq_true hpanic]

end MosSmp.Fs
