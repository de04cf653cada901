import MosSmp.Fs.Service

/-!
The files behind file ids. A file is a structure of a directory between two
removals of it; the record counts the removals of each structure and keeps the
file of every open file id, from the open that handed it out until the last
client has unmapped its page. As long as no open file is removed, an open file
id denotes the file that was opened. `opentab` itself holds a pointer to the
structure, which `file_remove` hands to the next file that is created.
-/

namespace MosSmp.Fs

open Lib Prog Relation Function

variable {s t : Server} {f g : FilePtr} {fileid : Nat}

structure Ids where
  removed : FilePtr → Nat
  opened : Nat → Option (FilePtr × Nat)

namespace Ids

def empty : Ids := ⟨fun _ => 0, fun _ => none⟩

/-- The file found for `file_remove` is removed. -/
def remove (h : Ids) : Except Stop (Except FsErr FilePtr × Server) → Ids
  | .ok (.ok f, _) => { h with removed := update h.removed f (h.removed f + 1) }
  | _ => h

/-- The reply hands out a file id. One that is open already keeps its file. -/
def handOut (h : Ids) (t : Server) : Shown → Ids
  | .filefd i =>
    match h.opened i, (t.opentab i).file with
    | none, some f => { h with opened := update h.opened i (some (f, h.removed f)) }
    | _, _ => h
  | _ => h

def reply (h : Ids) (s t : Server) (req : Request) (r : Reply) : Ids :=
  match req, r.value with
  | .remove path, .ok _ => (h.remove (fileOpen path s)).handOut t r.page
  | _, _ => h.handOut t r.page

def note (s : Server) (e : Event) (h : Ids) : Ids :=
  match e with
  | .request _ req mem =>
    match (s.step e).bind (fun t => t.replies.getLast?.map (fun r => (t, r))) with
    | some (t, r) => h.reply (s.entered mem) t req r
    | none => h
  | .filefd i n => if n ≤ 1 then { h with opened := update h.opened i none } else h
  | .fill _ _ => h

end Ids

def tracked : Machine (Server × Ids) Event :=
  (server Formatted).record .empty Ids.note

/-- The conditions on an event: those of `Legal` but for the file id a request
names, and no file is removed that a client has open. -/
def Undisturbed (s : Server) : Event → Prop
  | .request _ req mem => ProperRequest (s.entered mem) req ∧
      ∀ g, req.Removes (s.entered mem) g →
        ∀ i, 1 < (s.opentab i).pageref → (s.opentab i).file ≠ some g
  | .fill l w => Legal s (.fill l w)
  | .filefd i n => Legal s (.filefd i n)

/-- The open file ids are those of the record, and their files are in the tree. -/
structure Intact (s : Server) (h : Ids) : Prop where
  running : Running s
  closed : ∀ i, (s.opentab i).pageref ≤ 1 → h.opened i = none
  opened : ∀ i f, 1 < (s.opentab i).pageref → (s.opentab i).file = some f →
    Reach s.view f ∧ h.opened i = some (f, h.removed f)

variable {h : Ids}

theorem Intact.legal (hi : Intact s h) {e : Event} (hok : Undisturbed s e) : Legal s e := by
  cases e with
  | request =>
    refine ⟨hok.1, fun id f _ hrun => ?_⟩
    obtain ⟨_, href, hfile⟩ := openLookup_ok hrun
    exact (hi.opened id f href hfile).1
  | fill | filefd => exact hok

namespace Ids

theorem remove_of_ne {r : Except Stop (Except FsErr FilePtr × Server)}
    (hne : ∀ f u, r = .ok (.ok f, u) → f ≠ g) : (h.remove r).removed g = h.removed g := by
  unfold remove
  split
  · next f u => exact update_of_ne (Ne.symm (hne f u rfl)) _ _
  · rfl

theorem remove_opened (r : Except Stop (Except FsErr FilePtr × Server)) :
    (h.remove r).opened = h.opened := by
  unfold remove
  split <;> rfl

theorem handOut_removed (page : Shown) : (h.handOut t page).removed = h.removed := by
  unfold handOut
  split
  · split <;> rfl
  · rfl

theorem handOut_of_ne {page : Shown} {i : Nat} (hne : page ≠ .filefd i) :
    (h.handOut t page).opened i = h.opened i := by
  unfold handOut
  split
  · next j =>
    have hij : i ≠ j := by
      rintro rfl
      exact hne rfl
    split
    · exact update_of_ne hij _ _
    · rfl
  · rfl

theorem handOut_self {i : Nat} (hnone : h.opened i = none) (hfile : (t.opentab i).file = some f) :
    (h.handOut t (.filefd i)).opened i = some (f, h.removed f) := by
  simp only [handOut, hnone, hfile]
  exact update_self ..

/-- The part of the record that a reply changes through the removal of a file. -/
theorem reply_eq (h : Ids) (s t : Server) (req : Request) (r : Reply) :
    ∃ h' : Ids, h.reply s t req r = h'.handOut t r.page ∧ h'.opened = h.opened ∧
      ∀ g, ¬ (r.value = .ok () ∧ req.Removes s g) → h'.removed g = h.removed g := by
  unfold reply
  split
  · next path hok =>
    refine ⟨_, rfl, remove_opened _, fun g hg => remove_of_ne ?_⟩
    rintro _ u hrun rfl
    exact hg ⟨hok, u, hrun⟩
  · exact ⟨h, rfl, rfl, fun _ _ => rfl⟩

end Ids

/-- A request keeps the record and `opentab` in step. -/
theorem Intact.request (hi : Intact s h) {whom : Nat} {req : Request} {mem : Nat → Bool}
    (hok : Undisturbed s (.request whom req mem))
    (hstep : s.step (.request whom req mem) = some t) :
    Intact t (Ids.note s (.request whom req mem) h) := by
  obtain ⟨value, page, ht⟩ := hi.running.handled (hi.legal hok) hstep
  have hnote : Ids.note s (.request whom req mem) h =
      h.reply (s.entered mem) t req ⟨whom, value, page⟩ := by
    simp [Ids.note, hstep, ht.replies]
  obtain ⟨_, heq, hopened, hremoved⟩ := h.reply_eq (s.entered mem) t req ⟨whom, value, page⟩
  rw [hnote, heq]
  -- a file that a client has open is not the one that is removed
  have hstays : ∀ i f, 1 < (s.opentab i).pageref → (s.opentab i).file = some f →
      ¬ (value = .ok () ∧ req.Removes (s.entered mem) f) :=
    fun i f href hfile hgone => hok.2 f hgone.2 i href hfile
  refine ⟨ht.running, fun i href => ?_, fun i f href hfile => ?_⟩
  · by_cases hpage : page = .filefd i
    · exact absurd href (Nat.not_le.mpr (ht.shares.fresh i hpage).2.1)
    · rw [Ids.handOut_of_ne hpage, hopened]
      rcases ht.shares.same i hpage with hsame | hle
      · exact hi.closed i (hsame ▸ href)
      · exact hi.closed i hle.1
  · by_cases hpage : page = .filefd i
    · subst hpage
      obtain ⟨hold, _, g, hg, hreach⟩ := ht.shares.fresh i rfl
      obtain rfl : g = f := Option.some.inj (hg.symm.trans hfile)
      refine ⟨hreach, ?_⟩
      rw [Ids.handOut_removed]
      exact Ids.handOut_self (by rw [hopened]; exact hi.closed i hold) hfile
    · rcases ht.shares.same i hpage with hsame | hle
      · rw [hsame] at href hfile
        obtain ⟨hreach, hrec⟩ := hi.opened i f href hfile
        refine ⟨(ht.reach f hreach).resolve_left (hstays i f href hfile), ?_⟩
        rw [Ids.handOut_of_ne hpage, Ids.handOut_removed, hopened, hrec,
          hremoved f (hstays i f href hfile)]
      · exact absurd hle.2 (Nat.not_le.mpr href)

theorem Intact.filefd (hi : Intact s h) {i n : Nat} (href : 1 < (s.opentab i).pageref) :
    Intact (s.setOpen i { s.opentab i with pageref := n }) (Ids.note s (.filefd i n) h) := by
  have hself : (s.setOpen i { s.opentab i with pageref := n }).opentab i =
      { s.opentab i with pageref := n } := update_self ..
  have hother : ∀ j, j ≠ i → (s.setOpen i { s.opentab i with pageref := n }).opentab j =
      s.opentab j := fun j hj => update_of_ne hj ..
  have hnote : ∀ j, (Ids.note s (.filefd i n) h).opened j =
      if j = i ∧ n ≤ 1 then none else h.opened j := by
    intro j
    unfold Ids.note
    by_cases hn : n ≤ 1
    · by_cases hj : j = i
      · simp [hn, hj]
      · simp [hn, hj]
    · simp [hn]
  have hremoved : (Ids.note s (.filefd i n) h).removed = h.removed := by
    unfold Ids.note
    by_cases hn : n ≤ 1
    · simp [hn]
    · simp [hn]
  refine ⟨hi.running.setOpen href, fun j hj => ?_, fun j f hj hfile => ?_⟩
  · rw [hnote]
    by_cases hji : j = i
    · subst hji
      rw [hself] at hj
      rw [if_pos ⟨rfl, hj⟩]
    · rw [if_neg (fun h => hji h.1)]
      rw [hother j hji] at hj
      exact hi.closed j hj
  · rw [hnote, hremoved]
    by_cases hji : j = i
    · subst hji
      rw [hself] at hj hfile
      rw [if_neg (fun h => Nat.not_le.mpr hj h.2)]
      exact hi.opened j f href hfile
    · rw [if_neg (fun h => hji h.1)]
      rw [hother j hji] at hj hfile
      exact hi.opened j f hj hfile

theorem intact_of_undisturbed {p : Server × Ids}
    (hreach : tracked.ReachableUnder (fun q e => Undisturbed q.1 e) p) : Intact p.1 p.2 := by
  induction hreach with
  | @init p hinit =>
    obtain ⟨⟨_, _, hformatted, hmount⟩, hrec⟩ := hinit
    obtain ⟨hrunning, htab⟩ := running_mount hformatted hmount
    refine ⟨hrunning, fun i _ => by rw [hrec]; rfl, fun i f href _ => ?_⟩
    rw [htab] at href
    cases href
  | @step p q e _ hok hstep ih =>
    obtain ⟨hs, hnote⟩ := Machine.record_step hstep
    rw [hnote]
    cases e with
    | request => exact ih.request hok hs
    | fill l w =>
      obtain ⟨f, i, hf, ht, hne, hblk⟩ := hok
      rw [step_fill hs]
      obtain ⟨hrunning, hkeeps⟩ := ih.running.filled hf ht hne hblk w
      refine ⟨hrunning, ih.closed, fun j g href hfile => ?_⟩
      obtain ⟨hg, hrec⟩ := ih.opened j g href hfile
      exact ⟨hkeeps g hg, hrec⟩
    | filefd =>
      obtain ⟨href, heq⟩ := step_filefd hs
      rw [heq]
      exact ih.filefd href

theorem fileid_denotes {p : Server × Ids}
    (hreach : tracked.ReachableUnder (fun q e => Undisturbed q.1 e) p)
    (hopen : openLookup fileid p.1 = .ok (.ok f, p.1)) :
    p.2.opened fileid = some (f, p.2.removed f) ∧ Reach p.1.view f ∧
      ∀ whom req mem t, req.named = some fileid → Undisturbed p.1 (.request whom req mem) →
        p.1.step (.request whom req mem) = some t →
        ActsOn p.1 t f ∧ ∃ value page, t.replies = p.1.replies ++ [⟨whom, value, page⟩] ∧
          Exposes t f page := by
  have hi := intact_of_undisturbed hreach
  obtain ⟨_, href, hfile⟩ := openLookup_ok hopen
  obtain ⟨hf, hrec⟩ := hi.opened fileid f href hfile
  refine ⟨hrec, hf, fun whom req mem t hreq hok hstep => ?_⟩
  obtain ⟨value, page, ht⟩ := hi.running.handled (hi.legal hok) hstep
  obtain ⟨hacts, hexposes⟩ := ht.acts fileid f hreq hopen
  exact ⟨hacts, value, page, ht.replies, hexposes⟩

theorem mounted_undisturbed : Undisturbed mounted (.request 1 (.open pathA O_CREAT) enough) :=
  ⟨mounted_mayOpen, fun _ hg => hg.elim⟩

/-- The first file id that the server hands out still stands for its file when another
client has closed it. -/
theorem fileid_denotes_close :
    ∃ p : Server × Ids, tracked.ReachableUnder (fun q e => Undisturbed q.1 e) p ∧
      p.1.replies.length = 2 ∧ openLookup 0 p.1 = .ok (.ok (.inBlock 3 0), p.1) ∧
      p.2.opened 0 = some (.inBlock 3 0, p.2.removed (.inBlock 3 0)) := by
  have hsome : (mounted.step (.request 1 (.open pathA O_CREAT) enough)).any (fun s =>
      decide (1 < (s.opentab 0).pageref ∧ (s.opentab 0).file = some (.inBlock 3 0)) &&
      (s.step (.request 2 (.close 0) enough)).any (fun t => decide (t.replies.length = 2 ∧
        1 < (t.opentab 0).pageref ∧ (t.opentab 0).file = some (.inBlock 3 0)))) = true := by
    decide +kernel
  obtain ⟨s, hs, hP⟩ := (Option.any_eq_true ..).mp hsome
  obtain ⟨hfirst, hnext⟩ := Bool.and_eq_true_iff.mp hP
  obtain ⟨t, ht, hQ⟩ := (Option.any_eq_true ..).mp hnext
  obtain ⟨href, hfile⟩ := of_decide_eq_true hfirst
  obtain ⟨htwo, href', hfile'⟩ := of_decide_eq_true hQ
  have hclose : Undisturbed s (.request 2 (.close 0) enough) := by
    refine ⟨fun f hf hroot => ?_, fun _ hg => hg.elim⟩
    obtain ⟨_, _, hfile''⟩ := openLookup_ok hf
    cases hroot ▸ hfile.symm.trans hfile''
  have hstart : tracked.ReachableUnder (fun q e => Undisturbed q.1 e) (mounted, Ids.empty) :=
    .init ⟨mounted_init, rfl⟩
  have hcreated : tracked.ReachableUnder (fun q e => Undisturbed q.1 e)
      (s, Ids.note mounted (.request 1 (.open pathA O_CREAT) enough) .empty) :=
    .step (.request 1 (.open pathA O_CREAT) enough) hstart mounted_undisturbed
      (Option.map_eq_some_iff.mpr ⟨s, hs, rfl⟩)
  have hreach : tracked.ReachableUnder (fun q e => Undisturbed q.1 e)
      (t, Ids.note s (.request 2 (.close 0) enough) _) :=
    .step (.request 2 (.close 0) enough) hcreated hclose
      (Option.map_eq_some_iff.mpr ⟨t, ht, rfl⟩)
  have hopen : openLookup 0 t = .ok (.ok (.inBlock 3 0), t) :=
    openLookup_of (by decide) href' hfile'
  exact ⟨_, hreach, htwo, hopen, (fileid_denotes hreach hopen).1⟩

/-- The path `/b`. -/
def pathB : List Byte := [47, 98]

/-- `/a` is opened and removed and `/b` is created in its structure: the file id
of `/a` maps the first block of `/b`. -/
theorem reusedStructure_reachable : ∃ p : Server × Ids, tracked.Reachable p ∧
      openLookup 0 p.1 = .ok (.ok (.inBlock 3 0), p.1) ∧
      p.2.opened 0 = some (.inBlock 3 0, 0) ∧ p.2.opened 1 = some (.inBlock 3 0, 1) ∧
      p.2.removed (.inBlock 3 0) = 1 ∧
      ∃ t, p.1.step (.request 1 (.map 0 0) enough) = some t ∧
        t.replies.getLast?.map Reply.page = some (.block 4) ∧
        (FilePtr.inBlock 3 0).slot t.view 0 = 4 := by
  have hstart : tracked.Reachable (mounted, Ids.empty) := .init ⟨mounted_init, rfl⟩
  obtain ⟨p, hp, ⟨href, hfile⟩, h0, h1, hremoved, hnext⟩ := Machine.exists_reachableUnder_of_exec
      (P := fun p : Server × Ids => (1 < (p.1.opentab 0).pageref ∧
          (p.1.opentab 0).file = some (.inBlock 3 0)) ∧
        p.2.opened 0 = some (.inBlock 3 0, 0) ∧ p.2.opened 1 = some (.inBlock 3 0, 1) ∧
        p.2.removed (.inBlock 3 0) = 1 ∧
        (p.1.step (.request 1 (.map 0 0) enough)).any (fun t =>
          decide (t.replies.getLast?.map Reply.page = some (.block 4)) &&
            decide ((FilePtr.inBlock 3 0).slot t.view 0 = 4)) = true)
      [.request 1 (.open pathA O_CREAT) enough, .request 2 (.remove pathA) enough,
        .request 2 (.open pathB O_CREAT) enough]
      hstart (by decide +kernel)
  obtain ⟨t, ht, hP⟩ := (Option.any_eq_true ..).mp hnext
  obtain ⟨hpage, hslot⟩ := Bool.and_eq_true_iff.mp hP
  exact ⟨p, hp, openLookup_of (by decide) href hfile, h0, h1, hremoved, t, ht,
    of_decide_eq_true hpage, of_decide_eq_true hslot⟩

end MosSmp.Fs
