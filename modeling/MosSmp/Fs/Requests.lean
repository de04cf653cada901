import MosSmp.Fs.Mount

/-!
Requests on a sound server. A request is answered in three parts: `serve` takes
the lock, the handler runs functions of `fs.c` and changes `opentab`, and
`serve` gives the lock back. `Serving` holds through a handler; `Running` holds
between requests. The conditions on a request are on the state in which the
handler starts.
-/

namespace MosSmp.Fs

open Lib Prog Relation Server Option Nat

variable {s t u : Server} {kept : Nat → Prop} {gone : FilePtr → Prop} {E : Stop → Prop}
  {X : FsErr → Server → Prop} {f F : FilePtr} {whom fileid omode : Nat} {path : List Byte}
  {α : Type} {req : Request} {value : Except FsErr Unit} {page : Shown}

/-- The fields that the functions of `fs.c` leave alone. -/
structure Framed (s t : Server) : Prop where
  opentab : t.opentab = s.opentab
  lock : t.lock = s.lock
  reqva : t.reqva = s.reqva
  replies : t.replies = s.replies

theorem Framed.refl (s : Server) : Framed s s := ⟨rfl, rfl, rfl, rfl⟩

theorem closed_framed (s : Server) : Closed (Framed s) where
  asks := fun _ h => ⟨h.opentab, h.lock, h.reqva, h.replies⟩
  stores := fun _ _ _ h _ => ⟨h.opentab, h.lock, h.reqva, h.replies⟩
  zeroes := fun _ _ h _ => ⟨h.opentab, h.lock, h.reqva, h.replies⟩
  reads := fun _ _ h _ => ⟨h.opentab, h.lock, h.reqva, h.replies⟩
  dirties := fun _ _ _ h _ => ⟨h.opentab, h.lock, h.reqva, h.replies⟩
  writes := fun _ _ _ h _ => ⟨h.opentab, h.lock, h.reqva, h.replies⟩

/-- A change of fields other than the disk and the cache. -/
theorem calm_of_same (hdisk : t.disk = s.disk) (hcache : t.cache = s.cache)
    (hsuper : t.superSet = s.superSet) (hbitmap : t.bitmapSet = s.bitmapSet) : Calm s t := by
  have hcached : ∀ b, t.Cached b ↔ s.Cached b := by
    intro b
    unfold Server.Cached
    rw [hcache]
  refine ⟨⟨fun b => (hcached b).mpr, hsuper, hbitmap⟩, ?_, fun b hb => .inl ((hcached b).mp hb)⟩
  funext b
  unfold view
  rw [hcache, hdisk]

theorem After.calm (h : After s t kept gone) (hc : Calm t u) : After s u kept gone :=
  h.later (h.sound.later_of_calm hc)

/-- The structure of an open file. It need not be in use any more. -/
structure Handle (s : Server) (f : FilePtr) : Prop where
  slotted : Slotted s.view f
  cached : s.Cached f.blk
  fathered : f ≠ .root → Fathered s f

theorem OpenFile.handle (h : OpenFile s f) : Handle s f := ⟨h.reach.slotted, h.cached, h.fathered⟩

theorem Handle.after (h : Handle s f) (hl : After s t kept gone) : Handle t f where
  slotted := hl.moved.slots f h.slotted
  cached := hl.cached _ h.cached
  fathered := fun hne => (h.fathered hne).of_moved h.slotted hl.toGrown hl.moved

/-- Clients have the pages of open entries only. -/
def Mapped (s : Server) : Prop :=
  ∀ i, 1 < (s.opentab i).pageref → (s.opentab i).file ≠ none

/-- The state in a handler that started in `s` and has sent the replies `sent`. -/
structure Serving (s t : Server) (sent : List Reply) (gone : FilePtr → Prop) : Prop where
  after : After s t (Reserved s.view) gone
  lock : t.lock = true
  replies : t.replies = s.replies ++ sent
  handles : ∀ i f, (t.opentab i).file = some f → Handle t f
  mapped : Mapped t

/-- No file has been removed. -/
abbrev Served (s t : Server) (sent : List Reply) : Prop :=
  Serving s t sent (fun _ => False)

namespace Serving

variable {sent : List Reply}

/-- A function of `fs.c` has run. -/
theorem ran (h : Served s t sent) (hl : After t u (Reserved s.view) gone) (hframe : Framed t u) :
    Serving s u sent gone := by
  refine ⟨After.of_later h.after hl, hframe.lock.trans h.lock, hframe.replies.trans h.replies,
    fun i f hf => ?_, fun i hi => ?_⟩
  · rw [hframe.opentab] at hf
    exact (h.handles i f hf).after hl
  · rw [hframe.opentab] at hi ⊢
    exact h.mapped i hi

/-- A function of `fs.c` in a handler. -/
theorem op (h : Served s t sent) {m : FsProg α} {Q : α → Server → Prop}
    {R : FsErr → Server → Prop} (hkeeps : Keeps (Framed t) m)
    (hm : wp m E (fun e u => Later t u (Reserved s.view) ∧ R e u)
      (fun a u => After t u (Reserved s.view) gone ∧ Q a u) t) :
    wp m E (fun e u => Served s u sent ∧ Framed t u ∧ R e u)
      (fun a u => Serving s u sent gone ∧ Framed t u ∧ Q a u) t := by
  refine (hm.and (hkeeps t (.refl t))).mono (fun _ hi => hi.1) ?_ ?_
  · exact fun _ u hu => ⟨h.ran hu.1.1 hu.2, hu.2, hu.1.2⟩
  · exact fun _ u hu => ⟨h.ran hu.1.1 hu.2, hu.2, hu.1.2⟩

section

variable (h : Serving s t sent gone)
include h

/-- A change of one entry of `opentab`. -/
theorem setOpen {i : Nat} {o : Open}
    (hfile : ∀ f, o.file = some f → (t.opentab i).file = some f ∨ Handle t f)
    (href : 1 < o.pageref → o.file ≠ none) : Serving s (t.setOpen i o) sent gone := by
  have hcalm : Calm t (t.setOpen i o) := calm_of_same rfl rfl rfl rfl
  have hself : (t.setOpen i o).opentab i = o := Function.update_self ..
  have hother : ∀ j, j ≠ i → (t.setOpen i o).opentab j = t.opentab j :=
    fun j hj => Function.update_of_ne hj ..
  refine ⟨h.after.calm hcalm, h.lock, h.replies, fun j f hf => ?_, fun j hj => ?_⟩
  · have hold : Handle t f := by
      by_cases hji : j = i
      · subst hji
        rw [hself] at hf
        exact (hfile f hf).elim (h.handles j f) id
      · rw [hother j hji] at hf
        exact h.handles j f hf
    exact hold.after (h.after.sound.later_of_calm hcalm)
  · by_cases hji : j = i
    · subst hji
      rw [hself] at hj ⊢
      exact href hj
    · rw [hother j hji] at hj ⊢
      exact h.mapped j hj

theorem share (hpage : ∀ i, page = .filefd i → (t.opentab i).file ≠ none) :
    Serving s (t.share page) sent gone := by
  cases page with
  | nothing | block => exact h
  | filefd i => exact h.setOpen (fun f hf => .inl hf) (fun _ => hpage i rfl)

/-- The state after the kernel has answered an allocation. -/
theorem ask : Serving s { t with asked := t.asked + 1 } sent gone := by
  have hcalm : Calm t { t with asked := t.asked + 1 } := calm_of_same rfl rfl rfl rfl
  exact ⟨h.after.calm hcalm, h.lock, h.replies,
    fun i f hf => (h.handles i f hf).after (h.after.sound.later_of_calm hcalm), h.mapped⟩

end

end Serving

/-! ### What a request does -/

/-- The file id that a request names. -/
def Request.named : Request → Option Nat
  | .map i _ => some i
  | .setSize i _ => some i
  | .close i => some i
  | .dirty i _ => some i
  | _ => none

/-- The file that the request takes out of the tree if it succeeds. -/
def Request.Removes (s : Server) : Request → FilePtr → Prop
  | .remove path => Fs.Removes s path
  | _ => fun _ => False

/-- Other files than `f` keep their sizes and blocks. -/
structure ActsOn (s t : Server) (f : FilePtr) : Prop where
  reach : ∀ g, Reach t.view g ↔ Reach s.view g
  others : ∀ g, Slotted s.view g → g ≠ f →
    g.size t.view = g.size s.view ∧ ∀ p, g.ref t.view p = g.ref s.view p

theorem FillOf.actsOn (h : FillOf F s t kept) : ActsOn s t F where
  reach := h.kin.reach
  others := fun g hg hne => ⟨h.kin.size g hg, fun p => h.others g p hg hne⟩

theorem Resized.actsOn (h : Resized s t kept F) : ActsOn s t F where
  reach := h.reach
  others := h.others

theorem Calm.actsOn (h : Calm s t) : ActsOn s t F where
  reach := fun g => by rw [h.view]
  others := fun g _ _ => by
    rw [h.view]
    exact ⟨rfl, fun _ => rfl⟩

/-- The page of a reply is that of a block of `f`. -/
def Exposes (t : Server) (f : FilePtr) (page : Shown) : Prop :=
  ∀ b, page = .block b → b ≠ 0 ∧ ∃ i, f.slot t.view i = b

/-- The entries of `opentab` after a request with the reply `page`. -/
structure Shares (s t : Server) (page : Shown) : Prop where
  same : ∀ i, page ≠ .filefd i → t.opentab i = s.opentab i ∨
    (s.opentab i).pageref ≤ 1 ∧ (t.opentab i).pageref ≤ 1
  fresh : ∀ i, page = .filefd i → (s.opentab i).pageref ≤ 1 ∧ 1 < (t.opentab i).pageref ∧
    ∃ f, (t.opentab i).file = some f ∧ Reach t.view f

theorem Shares.of_opentab (h : t.opentab = s.opentab) (hpage : ∀ i, page ≠ .filefd i) :
    Shares s t page where
  same := fun i _ => .inl (by rw [h])
  fresh := fun i hi => absurd hi (hpage i)

/-- The state after the handler of a request and the reply to it. -/
structure Outcome (s : Server) (whom : Nat) (req : Request) (value : Except FsErr Unit)
    (page : Shown) (t : Server) : Prop where
  serving : Serving s t [⟨whom, value, page⟩] (fun g => value = .ok () ∧ req.Removes s g)
  shares : Shares s t page
  acts : ∀ id f, req.named = some id → openLookup id s = .ok (.ok f, s) →
    ActsOn s t f ∧ Exposes t f page

def Answered (s : Server) (whom : Nat) (req : Request) (t : Server) : Prop :=
  ∃ value page, Outcome s whom req value page t

/-- The reply that ends a handler. -/
theorem Serving.answer (value : Except FsErr Unit) (page : Shown)
    (h : Serving s t [] (fun g => value = .ok () ∧ req.Removes s g))
    (hpage : ∀ i, page = .filefd i → (t.opentab i).file ≠ none)
    (hshares : Shares s (t.share page) page)
    (hacts : ∀ id f, req.named = some id → openLookup id s = .ok (.ok f, s) →
      ActsOn s (t.share page) f ∧ Exposes (t.share page) f page) :
    wp (ipcSend whom value page) E X (fun _ => Answered s whom req) t := by
  have h := h.share hpage
  have hcalm : Calm (t.share page)
      { t.share page with replies := (t.share page).replies ++ [⟨whom, value, page⟩] } :=
    calm_of_same rfl rfl rfl rfl
  refine ⟨value, page, ⟨h.after.calm hcalm, h.lock, ?_, fun i f hf => ?_, h.mapped⟩, ?_, ?_⟩
  · change (t.share page).replies ++ [_] = _
    rw [h.replies, List.append_nil]
  · exact (h.handles i f hf).after (h.after.sound.later_of_calm hcalm)
  · exact ⟨hshares.same, hshares.fresh⟩
  · exact fun id f hid hrun => ⟨⟨(hacts id f hid hrun).1.reach, (hacts id f hid hrun).1.others⟩,
      (hacts id f hid hrun).2⟩

/-- The reply of an error or of a value without a page. -/
theorem Serving.answer_nothing (value : Except FsErr Unit)
    (h : Serving s t [] (fun g => value = .ok () ∧ req.Removes s g))
    (hopentab : ∀ i, t.opentab i = s.opentab i ∨
      (s.opentab i).pageref ≤ 1 ∧ (t.opentab i).pageref ≤ 1)
    (hacts : ∀ id f, req.named = some id → openLookup id s = .ok (.ok f, s) → ActsOn s t f) :
    wp (ipcSend whom value .nothing) E X (fun _ => Answered s whom req) t :=
  h.answer value .nothing (fun _ hi => by cases hi) ⟨fun i _ => hopentab i, fun _ hi => by cases hi⟩
    (fun id f hid hrun => ⟨hacts id f hid hrun, fun _ hb => by cases hb⟩)

theorem Serving.not_gone (h : Served s t []) {gone : FilePtr → Prop} : Serving s t [] gone :=
  ⟨h.after.mono (fun _ hg => hg.elim), h.lock, h.replies, h.handles, h.mapped⟩

/-! ### Handlers on an open file -/

/-- An open file id is that of an entry which a client maps. -/
theorem openLookup_ok (h : openLookup fileid s = .ok (.ok f, t)) :
    fileid < MAXOPEN ∧ 1 < (s.opentab fileid).pageref ∧ (s.opentab fileid).file = some f := by
  have hwp : wp (openLookup fileid) (fun _ => True) (fun _ _ => True)
      (fun f _ => fileid < MAXOPEN ∧ 1 < (s.opentab fileid).pageref ∧
        (s.opentab fileid).file = some f) s := by
    by_cases hlt : MAXOPEN ≤ fileid
    · exact wp_pos hlt trivial
    refine wp_neg hlt (wp_bind.mpr (wp_state.mpr ?_))
    by_cases href : (s.opentab fileid).pageref ≤ 1
    · exact wp_pos href trivial
    refine wp_neg href ?_
    cases hf : (s.opentab fileid).file with
    | none => exact trivial
    | some => exact ⟨not_le.mp hlt, not_le.mp href, rfl⟩
  exact hwp.value h

theorem openLookup_of (hlt : fileid < MAXOPEN) (href : 1 < (s.opentab fileid).pageref)
    (hfile : (s.opentab fileid).file = some f) : openLookup fileid s = .ok (.ok f, s) := by
  have hwp : wp (openLookup fileid) (fun _ => False) (fun _ _ => False)
      (fun g t => g = f ∧ t = s) s := by
    refine wp_neg (not_le.mpr hlt) (wp_bind.mpr (wp_state.mpr ?_))
    refine wp_neg (not_le.mpr href) ?_
    rw [hfile]
    exact ⟨rfl, rfl⟩
  obtain ⟨r, t, hrun⟩ := hwp.total
  cases r with
  | error => exact (hwp.error hrun).elim
  | ok =>
    obtain ⟨rfl, rfl⟩ := hwp.value hrun
    exact hrun

theorem wp_openLookup {Q : FilePtr → Server → Prop} (hs : Mapped s)
    (hX : (∀ f, openLookup fileid s ≠ .ok (.ok f, s)) → X .inval s)
    (hQ : ∀ f, (s.opentab fileid).file = some f → openLookup fileid s = .ok (.ok f, s) → Q f s) :
    wp (openLookup fileid) E X Q s := by
  by_cases hlt : MAXOPEN ≤ fileid
  · refine wp_pos hlt (hX (fun f h => ?_))
    exact not_lt.mpr hlt (openLookup_ok h).1
  refine wp_neg hlt (wp_bind.mpr (wp_state.mpr ?_))
  by_cases href : (s.opentab fileid).pageref ≤ 1
  · refine wp_pos href (hX (fun f h => ?_))
    exact not_lt.mpr href (openLookup_ok h).2.1
  refine wp_neg href ?_
  have href := not_le.mp href
  obtain ⟨f, hf⟩ := ne_none_iff_exists'.mp (hs fileid href)
  have hrun := openLookup_of (not_le.mp hlt) href hf
  rw [hf]
  exact hQ f hf hrun

theorem answer_spec (hs : Served s s []) {op : FilePtr → FsProg α} {page : α → Shown}
    (hreq : req.named = some fileid)
    (hpage : ∀ a i, page a ≠ .filefd i)
    (hop : ∀ f, Handle s f → openLookup fileid s = .ok (.ok f, s) → Keeps (Framed s) (op f) ∧
      wp (op f) E (fun _ u => Later s u (Reserved s.view) ∧ ActsOn s u f)
        (fun a u => Later s u (Reserved s.view) ∧ ActsOn s u f ∧ Exposes u f (page a)) s) :
    wp (answer whom fileid op page) E (fun _ _ => False) (fun _ => Answered s whom req) s := by
  refine wp_bind.mpr (wp_attempt.mpr (wp_openLookup hs.mapped ?_ ?_))
  · intro hno
    refine hs.not_gone.answer_nothing (.error .inval) (fun i => .inl rfl) (fun id f hid hrun => ?_)
    rw [hreq] at hid
    exact absurd (some.inj hid ▸ hrun) (hno f)
  · intro f hf hrun
    obtain ⟨hkeeps, hm⟩ := hop f (hs.handles fileid f hf) hrun
    have hsame : ∀ id g, req.named = some id → openLookup id s = .ok (.ok g, s) → g = f := by
      intro id g hid hg
      rw [hreq] at hid
      cases hid
      rw [hrun] at hg
      cases hg
      rfl
    refine (hs.op hkeeps hm).attempt ?_ ?_
    · rintro e u ⟨hu, hframe, hacts⟩
      refine hu.not_gone.answer_nothing (.error e) (fun i => .inl (by rw [hframe.opentab])) ?_
      intro id g hid hg
      rw [hsame id g hid hg]
      exact hacts
    · rintro a u ⟨hu, hframe, hacts, hexposes⟩
      have hshare : u.share (page a) = u := by
        cases hp : page a with
        | nothing | block => rfl
        | filefd i => exact absurd hp (hpage a i)
      refine hu.not_gone.answer (.ok ()) (page a) (fun i hi => absurd hi (hpage a i)) ?_ ?_
      · rw [hshare]
        exact Shares.of_opentab hframe.opentab (hpage a)
      · intro id g hid hg
        rw [hshare, hsame id g hid hg]
        exact ⟨hacts, hexposes⟩

/-! ### Opening a file -/

/-- Before the file is looked up only entries that no client maps change. -/
structure Choosing (s t : Server) : Prop where
  served : Served s t []
  calm : Calm s t
  opentab : ∀ i, t.opentab i = s.opentab i ∨
    (s.opentab i).pageref ≤ 1 ∧ (t.opentab i).pageref ≤ 1

theorem tryOpen_spec (h : Choosing s t) (i : Nat) : wp (tryOpen i) E (fun _ u => Choosing s u)
      (fun r u => Choosing s u ∧ ∀ j, r = some j →
        (s.opentab j).pageref ≤ 1 ∧ (u.opentab j).pageref = 1) t := by
  have hask : Choosing s { t with asked := t.asked + 1 } :=
    ⟨h.served.ask, h.calm.trans (calm_of_same rfl rfl rfl rfl), h.opentab⟩
  have hold : (t.opentab i).pageref ≤ 1 → (s.opentab i).pageref ≤ 1 := by
    intro hle
    rcases h.opentab i with heq | hle'
    · exact heq ▸ hle
    · exact hle'.1
  refine wp_bind.mpr (wp_state.mpr ?_)
  by_cases hzero : (t.opentab i).pageref = 0
  · refine wp_pos hzero (wp_bind.mpr (wp_memAlloc ?_ (fun _ => hask)))
    refine wp_bind.mpr (wp_update.mpr ⟨⟨hask.served.setOpen ?_ ?_, ?_, fun j => ?_⟩, ?_⟩)
    · exact fun f hf => .inl hf
    · exact fun href => absurd href (lt_irrefl 1)
    · exact hask.calm.trans (calm_of_same rfl rfl rfl rfl)
    · by_cases hji : j = i
      · subst hji
        refine .inr ⟨hold (by omega), ?_⟩
        simp [setOpen]
      · have hother := hask.opentab j
        simpa [setOpen, hji] using hother
    · rintro j hj
      cases hj
      exact ⟨hold (by omega), by simp [setOpen]⟩
  · refine wp_neg hzero ?_
    by_cases hone : (t.opentab i).pageref = 1
    · refine wp_pos hone ⟨h, fun j hj => ?_⟩
      cases hj
      exact ⟨hold (by omega), hone⟩
    · exact wp_neg hone ⟨h, fun j hj => by cases hj⟩

theorem searchOpen_spec (h : Choosing s s) (entries : List Nat) :
    wp (search tryOpen entries) E (fun _ u => Choosing s u)
      (fun r u => Choosing s u ∧ ∀ j, r = some j →
        (s.opentab j).pageref ≤ 1 ∧ (u.opentab j).pageref = 1) s := by
  refine wp_search (I := fun _ u => Choosing s u) (fun i _ t ht => ?_)
    (fun _ ht => ⟨ht, fun j hj => by cases hj⟩) entries h
  refine (tryOpen_spec ht i).post (fun r u hr => ?_)
  cases r with
  | some => exact hr
  | none => exact hr.1

theorem openAlloc_spec (h : Choosing s s) : wp openAlloc E (fun _ u => Choosing s u)
      (fun j u => Choosing s u ∧ (s.opentab j).pageref ≤ 1 ∧ (u.opentab j).pageref = 1) s := by
  unfold openAlloc
  generalize List.range MAXOPEN = entries
  refine (searchOpen_spec h entries).bind (fun r t ht => ?_)
  cases r with
  | some j => exact ⟨ht.1, ht.2 j rfl⟩
  | none => exact ht.1

/-- The file that a request to open finds, from the state in which the handler
starts. -/
def Finds (s : Server) (path : List Byte) (omode : Nat) (f : FilePtr) (u : Server) : Prop :=
  ∃ i t, openAlloc s = .ok (.ok i, t) ∧ findFile path omode t = .ok (.ok f, u)

/-- What a request to open needs. -/
structure MayOpen (s : Server) (path : List Byte) (omode : Nat) : Prop where
  stale : NoStale s
  create : omode &&& O_CREAT ≠ 0 → CanCreate s ∧ SmallDirs s.view
  trunc : omode &&& O_TRUNC ≠ 0 → ∀ f u, Finds s path omode f u → f.type u.view ≠ FTYPE_DIR

theorem truncateOpened_spec (h : Served s t []) (hf : OpenFile t f) (ht : f.type t.view ≠ FTYPE_DIR)
    (hE : (∀ i, E i) ∨ (0 < f.size t.view → Cuttable t f)) :
    wp (truncateOpened whom f) E X (fun _ u => Served s u [] ∧ OpenFile u f ∧
      u.opentab = t.opentab) t := by
  have hroot := h.after.sound.owned.ne_root_of_regular ht
  have hsize := fileSetSize_spec (E := E) h.after.sound hf.reach ht hf.cached (hf.fathered hroot)
    (zero_le _) (hE.imp (fun hi e => hi _) (fun h hlt => (h hlt).truncatable))
  have hm := h.op ((closed_framed t).fileSetSize f 0) (Q := fun _ u => OpenFile u f)
    (R := fun _ _ => False) (hsize.imp (fun _ _ hx => hx.elim) (fun _ u hq =>
      ⟨hq.1.later, (hq.1.reach f).mpr hf.reach, hq.1.cached _ hf.cached,
        fun hne => (hf.fathered hne).of_moved hf.reach.slotted hq.1.toGrown hq.1.moved⟩))
  refine hm.attempt ?_ ?_
  · exact fun _ _ hx => hx.2.2.elim
  · rintro _ u ⟨hu, hframe, hfu⟩
    exact ⟨hu, hfu, hframe.opentab⟩

/-- The last part of `serve_open`: the entry is filled in and its page is sent. -/
theorem sendOpened_spec {o : Nat} (h : Served s t []) (hf : OpenFile t f)
    (hfile : (t.opentab o).file = some f) (href : (t.opentab o).pageref = 1)
    (hold : (s.opentab o).pageref ≤ 1)
    (hopentab : ∀ i, i ≠ o → t.opentab i = s.opentab i ∨
      (s.opentab i).pageref ≤ 1 ∧ (t.opentab i).pageref ≤ 1) :
    wp (do
        let _ ← pageAt f.blk
        update (fun s => s.setOpen o { s.opentab o with mode := omode })
        ipcSend whom (.ok ()) (.filefd o)) E (fun _ _ => False)
      (fun _ => Answered s whom (.open path omode)) t := by
  have hblk := h.after.sound.owned.blk_lt hf.reach.slotted
  refine wp_bind.mpr (wp_pageAt hblk hf.cached (fun _ _ => ?_))
  have h' : Served s (t.setOpen o { t.opentab o with mode := omode }) [] := by
    refine h.setOpen (fun _ hg => .inl hg) (fun _ => ?_)
    rw [hfile]
    exact some_ne_none f
  refine wp_bind.mpr (wp_update.mpr (h'.not_gone.answer _ _ ?_ ⟨?_, ?_⟩ ?_))
  · intro i hi
    obtain rfl := Shown.filefd.inj hi
    simp [setOpen, hfile]
  · intro i hi
    have hne : i ≠ o := by
      rintro rfl
      exact hi rfl
    simpa [share, setOpen, hne] using hopentab i hne
  · intro i hi
    obtain rfl := Shown.filefd.inj hi
    refine ⟨hold, ?_, f, ?_, hf.reach⟩
    · simp [share, setOpen, href]
    · simp [share, setOpen, hfile]
  · intro id _ hid
    cases hid

theorem serveOpen_spec (hs : Served s s []) (hmay : MayOpen s path omode)
    (hE : (∀ i, E i) ∨ (omode &&& O_TRUNC ≠ 0 →
      ∀ f u, Finds s path omode f u → 0 < f.size u.view → Cuttable u f)) :
    wp (serveOpen whom path omode) E (fun _ _ => False)
      (fun _ => Answered s whom (.open path omode)) s := by
  have hstart : Choosing s s := ⟨hs, .refl s, fun _ => .inl rfl⟩
  have hopen := (openAlloc_spec (E := E) hstart).ran
  refine hopen.attempt ?_ ?_
  · intro e t ht
    exact ht.served.not_gone.answer_nothing (.error e) ht.opentab (fun id _ hid => by cases hid)
  rintro o t ⟨⟨ht, hold, href⟩, halloc⟩
  have hfill := (hs.after.sound.quiet_of_calm ht.calm).toFill
  have hcreate : omode &&& O_CREAT ≠ 0 → CanCreate t ∧ SmallDirs t.view :=
    fun hc => ⟨hfill.canCreate (hmay.create hc).1, hfill.smallDirs (hmay.create hc).2⟩
  have hfind := findFile_spec (E := E) ht.served.after.sound (hfill.noStale hmay.stale) hcreate path
  have hm := ht.served.op ((closed_framed t).findFile path omode) (R := fun _ _ => True)
    (hfind.imp (fun _ _ hx => ⟨hx, trivial⟩) (fun _ _ hq => hq))
  refine hm.ran.attempt ?_ ?_
  · rintro e u ⟨hu, hframe, _⟩
    refine hu.not_gone.answer_nothing (.error e) (fun i => ?_) (fun id _ hid => by cases hid)
    rw [hframe.opentab]
    exact ht.opentab i
  rintro f u ⟨⟨hu, hframe, hf⟩, hrun⟩
  have hfinds : Finds s path omode f u := ⟨o, t, halloc, hrun⟩
  have hu' : Served s (u.setOpen o { u.opentab o with file := some f }) [] := by
    apply hu.setOpen
    · rintro _ hg
      cases hg
      exact .inr hf.handle
    · exact fun _ => some_ne_none f
  have hf' : OpenFile (u.setOpen o { u.opentab o with file := some f }) f :=
    ⟨hf.reach, hf.cached, hf.fathered⟩
  have hself : (u.setOpen o { u.opentab o with file := some f }).opentab o =
      { u.opentab o with file := some f } := Function.update_self ..
  have hother : ∀ i, i ≠ o → (u.setOpen o { u.opentab o with file := some f }).opentab i =
      s.opentab i ∨ (s.opentab i).pageref ≤ 1 ∧
        ((u.setOpen o { u.opentab o with file := some f }).opentab i).pageref ≤ 1 := by
    intro i hi
    rw [show (u.setOpen o { u.opentab o with file := some f }).opentab i = u.opentab i from
      Function.update_of_ne hi .., hframe.opentab]
    exact ht.opentab i
  have href' : ((u.setOpen o { u.opentab o with file := some f }).opentab o).pageref = 1 := by
    rw [hself]
    rw [hframe.opentab]
    exact href
  have hfile' : ((u.setOpen o { u.opentab o with file := some f }).opentab o).file = some f := by
    rw [hself]
  refine wp_bind.mpr (wp_update.mpr (wp_bind.mpr ?_))
  apply wp_when
  · intro htrunc
    have hcut : (∀ i, E i) ∨ (0 < f.size u.view → Cuttable u f) :=
      hE.imp_right (fun h => h htrunc f u hfinds)
    refine (truncateOpened_spec hu' hf' (hmay.trunc htrunc f u hfinds) hcut).post ?_
    rintro _ _ ⟨hw, hfw, htab⟩
    apply sendOpened_spec hw hfw
    · rw [htab]
      exact hfile'
    · rw [htab]
      exact href'
    · exact hold
    · rw [htab]
      exact hother
  · intro _
    exact sendOpened_spec hu' hf' hfile' href' hold hother

/-! ### Requests -/

/-- What a request needs to keep the tree in order, in the state in which the
handler starts. -/
def ProperRequest (s : Server) : Request → Prop
  | .open path omode => MayOpen s path omode
  | .map fileid offset => ∀ f, openLookup fileid s = .ok (.ok f, s) →
      MayAlloc s f (offset / BLOCK_SIZE)
  | .setSize fileid size => size ≤ MAXFILESIZE ∧ ∀ f, openLookup fileid s = .ok (.ok f, s) →
      f.type s.view ≠ FTYPE_DIR
  | .close fileid => ∀ f, openLookup fileid s = .ok (.ok f, s) → f ≠ .root
  | .dirty _ _ => True
  | .remove path => NoStale s ∧
      ∀ f t, fileOpen path s = .ok (.ok f, t) → f.type t.view ≠ FTYPE_DIR
  | .sync => True

/-- The file of the file id that the request names is still in the tree. -/
def InTree (s : Server) (req : Request) : Prop :=
  ∀ id f, req.named = some id → openLookup id s = .ok (.ok f, s) → Reach s.view f

def LegalRequest (s : Server) (req : Request) : Prop :=
  ProperRequest s req ∧ InTree s req

/-- The further conditions under which the handler of a request ends. A file
that is truncated has its indirect block in the cache if its size asks for one. -/
def PromptRequest (s : Server) : Request → Prop
  | .open path omode => omode &&& O_TRUNC ≠ 0 → ∀ f u, Finds s path omode f u →
      0 < f.size u.view → Cuttable u f
  | .setSize fileid size => ∀ f, openLookup fileid s = .ok (.ok f, s) →
      size < f.size s.view → Cuttable s f
  | .remove path => ∀ f t, fileOpen path s = .ok (.ok f, t) → Cuttable t f
  | .sync => False
  | _ => True

theorem serveRemove_spec (hs : Served s s []) (hproper : ProperRequest s (.remove path))
    (hE : (∀ i, E i) ∨ PromptRequest s (.remove path)) :
    wp (serveRemove whom path) E (fun _ _ => False)
      (fun _ => Answered s whom (.remove path)) s := by
  have hremove := fileRemove_spec hs.after.sound hproper.1 path hproper.2
    (hE.imp (fun hi e => hi _) id)
  have hm := hs.op ((closed_framed s).fileRemove path) (Q := fun _ _ => True)
    (R := fun _ _ => True) (hremove.imp (fun _ _ hx => ⟨hx, trivial⟩) (fun _ _ hq => ⟨hq, trivial⟩))
  refine hm.attempt ?_ ?_
  · rintro e u ⟨hu, hframe, _⟩
    exact hu.not_gone.answer_nothing (.error e) (fun i => .inl (by rw [hframe.opentab]))
      (fun id _ hid => by cases hid)
  · rintro _ u ⟨hu, hframe, _⟩
    have hu : Serving s u [] (fun g => (.ok () : Except FsErr Unit) = .ok () ∧
        (Request.remove path).Removes s g) :=
      ⟨hu.after.mono (fun _ hg => ⟨rfl, hg⟩), hu.lock, hu.replies, hu.handles, hu.mapped⟩
    exact hu.answer_nothing (.ok ()) (fun i => .inl (by rw [hframe.opentab]))
      (fun id _ hid => by cases hid)

theorem serveTable_spec (hs : Served s s []) (hlegal : LegalRequest s req)
    (hE : (∀ i, E i) ∨ PromptRequest s req) :
    wp (serveTable whom req) E (fun _ _ => False) (fun _ => Answered s whom req) s := by
  have hsound := hs.after.sound
  obtain ⟨hproper, htree⟩ := hlegal
  cases req with
  | «open» => exact serveOpen_spec hs hproper hE
  | map fileid =>
    refine answer_spec hs rfl (fun _ _ h => by cases h) (fun f hf hrun => ?_)
    have hreach := htree fileid f rfl hrun
    refine ⟨(closed_framed s).fileGetBlock f _, ?_⟩
    refine (fileGetBlock_spec hsound hreach hf.cached _ (hproper f hrun)).imp
      (fun _ _ hx => ⟨hx.later, hx.actsOn⟩) ?_
    rintro _ _ ⟨hfill, hd, hne, _⟩
    refine ⟨hfill.later, hfill.actsOn, fun b hb => ?_⟩
    obtain rfl := Shown.block.inj hb
    exact ⟨hne, _, hd.symm⟩
  | setSize fileid =>
    refine answer_spec hs rfl (fun _ _ h => by cases h) (fun f hf hrun => ?_)
    have hreach := htree fileid f rfl hrun
    have ht := hproper.2 f hrun
    refine ⟨(closed_framed s).fileSetSize f _, ?_⟩
    refine (fileSetSize_spec hsound hreach ht hf.cached
      (hf.fathered (hsound.owned.ne_root_of_regular ht)) hproper.1 ?_).imp
      (fun _ _ hx => hx.elim) (fun _ _ hq => ⟨hq.1.later, hq.1.actsOn, fun _ hb => by cases hb⟩)
    exact hE.imp (fun hi e => hi _) (fun h hlt => (h f hrun hlt).truncatable)
  | close fileid =>
    refine answer_spec hs rfl (fun _ _ h => by cases h) (fun f hf hrun => ?_)
    have hreach := htree fileid f rfl hrun
    refine ⟨(closed_framed s).fileClose f, ?_⟩
    exact (fileClose_spec hsound hreach hf.cached (hf.fathered (hproper f hrun))).imp
      (fun _ _ hx => hx.elim)
      (fun _ _ hq => ⟨hsound.later_of_calm hq, hq.actsOn, fun _ hb => by cases hb⟩)
  | dirty fileid =>
    refine answer_spec hs rfl (fun _ _ h => by cases h) (fun f hf hrun => ?_)
    refine ⟨(closed_framed s).fileDirty f _, ?_⟩
    exact (fileDirty_spec hsound (htree fileid f rfl hrun) hf.cached _).imp
      (fun _ _ hx => ⟨hsound.later_of_calm hx, hx.actsOn⟩)
      (fun _ _ hq => ⟨hsound.later_of_calm hq, hq.actsOn, fun _ hb => by cases hb⟩)
  | remove => exact serveRemove_spec hs hproper hE
  | sync =>
    -- the handler takes the lock that `serve` holds
    refine wp_bind.mpr (wp_bind.mpr (wp_userSpinLock_held hs.lock ?_))
    rcases hE with hE | hno
    · exact hE .spin
    · exact hno.elim

/-- The server between two requests. -/
structure Running (s : Server) : Prop where
  sound : Sound s (Reserved s.view)
  lock : s.lock = false
  handles : ∀ i f, (s.opentab i).file = some f → Handle s f
  mapped : Mapped s

/-- The state in which the handler of a request starts. -/
def Server.entered (s : Server) (mem : Nat → Bool) : Server :=
  { s.receive mem with lock := true }

theorem Running.served (h : Running s) (mem : Nat → Bool) :
    Served (s.entered mem) (s.entered mem) [] := by
  have hcalm : Calm s (s.entered mem) := calm_of_same rfl rfl rfl rfl
  have hsound : Sound (s.entered mem) (Reserved (s.entered mem).view) := h.sound.of_calm hcalm
  refine ⟨hsound.later_of_calm (.refl _), rfl, (List.append_nil _).symm, fun i f hf => ?_, h.mapped⟩
  exact (h.handles i f hf).after (h.sound.later_of_calm hcalm)

/-- What a request has done when the server is back at `ipc_recv`. -/
structure Handled (s : Server) (whom : Nat) (req : Request) (mem : Nat → Bool)
    (value : Except FsErr Unit) (page : Shown) (t : Server) : Prop where
  running : Running t
  reqva : t.reqva = false
  replies : t.replies = s.replies ++ [⟨whom, value, page⟩]
  reach : ∀ g, Reach s.view g →
    (value = .ok () ∧ req.Removes (s.entered mem) g) ∨ Reach t.view g
  shares : Shares s t page
  acts : ∀ id f, req.named = some id → openLookup id s = .ok (.ok f, s) →
    ActsOn s t f ∧ Exposes t f page

theorem openLookup_entered (mem : Nat → Bool) (h : openLookup fileid s = .ok (.ok f, s)) :
    openLookup fileid (s.entered mem) = .ok (.ok f, s.entered mem) := by
  obtain ⟨hlt, href, hfile⟩ := openLookup_ok h
  exact openLookup_of hlt href hfile

variable {mem : Nat → Bool}

/-- A request leaves the server as it was between two requests, with one more
reply. -/
theorem serve_spec (h : Running s) (whom : Nat) (hlegal : LegalRequest (s.entered mem) req)
    (hE : (∀ i, E i) ∨ PromptRequest (s.entered mem) req) :
    wp (serve whom req) E (fun _ _ => False)
      (fun _ t => ∃ value page, Handled s whom req mem value page t) (s.receive mem) := by
  refine wp_bind.mpr (wp_userSpinLock h.lock (wp_bind.mpr ?_))
  refine (serveTable_spec (h.served mem) hlegal hE).post ?_
  rintro _ t ⟨value, page, ht⟩
  have hcalm : Calm t { t with reqva := false, lock := false } := calm_of_same rfl rfl rfl rfl
  have hres : Reserved (s.entered mem).view = Reserved t.view := by
    funext b
    unfold Reserved
    rw [ht.serving.after.moved.disk]
  have hsound := ht.serving.after.sound
  rw [hres] at hsound
  refine wp_bind.mpr (wp_update.mpr (wp_update.mpr
    ⟨value, page, ⟨?_, rfl, ht.serving.replies, ?_, ⟨ht.shares.same, ht.shares.fresh⟩, ?_⟩⟩))
  · exact ⟨hsound.of_calm hcalm, rfl,
      fun i f hf => (ht.serving.handles i f hf).after (hsound.later_of_calm hcalm),
      ht.serving.mapped⟩
  · exact ht.serving.after.reach
  · intro id f hid hrun
    obtain ⟨hacts, hexposes⟩ := ht.acts id f hid (openLookup_entered mem hrun)
    exact ⟨⟨hacts.reach, hacts.others⟩, hexposes⟩

/-- The conditions on the events of a run. -/
def Legal (s : Server) : Event → Prop
  | .request _ req mem => LegalRequest (s.entered mem) req
  | .fill l _ => ∃ f i, Reach s.view f ∧ f.type s.view ≠ FTYPE_DIR ∧ f.slot s.view i ≠ 0 ∧
      f.slot s.view i = l.blk
  | .filefd _ _ => True

theorem Running.handled (h : Running s) (hlegal : LegalRequest (s.entered mem) req)
    (hstep : s.step (.request whom req mem) = some t) :
    ∃ value page, Handled s whom req mem value page t := by
  have hserve := serve_spec (E := fun _ => True) h whom hlegal (.inl fun _ => trivial)
  simp only [step] at hstep
  cases hrun : serve whom req (s.receive mem) with
  | error => simp [hrun] at hstep
  | ok p =>
    obtain ⟨r, u⟩ := p
    obtain rfl : u = t := by simpa [hrun] using hstep
    cases r with
    | error => exact (hserve.error hrun).elim
    | ok => exact hserve.value hrun

/-- A store of a client into a data block of a regular file. -/
theorem Running.filled (h : Running s) {l : Loc} (hf : Reach s.view f)
    (ht : f.type s.view ≠ FTYPE_DIR) {i : Nat} (hne : f.slot s.view i ≠ 0)
    (hblk : f.slot s.view i = l.blk) (w : Nat) :
    Running (s.put l w) ∧ ∀ g, Reach s.view g → Reach (s.put l w).view g := by
  have hout : Outside s.view l.blk := by
    rw [← hblk]
    exact h.sound.owned.outside_of_data hf ht hne
  have hv : ∀ c, c ≠ l.blk → (s.put l w).view c = s.view c := by
    intro c hc
    rw [view_put]
    exact setAt_other _ _ _ c hc
  have hsame := hout.sameTree hv
  have hkin : Kin (s.put l w).Cached s.view (s.put l w).view := hout.kin h.sound.owned hv
  have howned : Owned (s.put l w).view (Reserved s.view) := by
    refine h.sound.owned.same hsame (Owned.unused_congr (fun c hc => hv _ ?_))
    intro hcl
    have hk := h.sound.owned.reserved _ (Owned.bitmap_reserved s.view hc)
    rw [hcl, ← hblk] at hk
    exact h.sound.owned.holding.apart f (.slot i) hf hne hk
  have hlater : Later s (s.put l w) (Reserved s.view) :=
    ⟨grown_put s l w, h.sound.of_grown (grown_put s l w) hsame.disk howned, hkin.toMoved,
      fun g hg => .inr ((hkin.reach g).mpr hg)⟩
  have hres : Reserved s.view = Reserved (s.put l w).view := by
    funext b
    unfold Reserved
    rw [hsame.disk]
  refine ⟨⟨hres ▸ hlater.sound, h.lock, fun i f hf => ?_, h.mapped⟩,
    fun g hg => (hkin.reach g).mpr hg⟩
  exact (h.handles i f hf).after hlater

theorem Running.setOpen (h : Running s) {i n : Nat} (hi : 1 < (s.opentab i).pageref) :
    Running (s.setOpen i { s.opentab i with pageref := n }) := by
  have hcalm : Calm s (s.setOpen i { s.opentab i with pageref := n }) :=
    calm_of_same rfl rfl rfl rfl
  have hfile : ∀ j, ((s.setOpen i { s.opentab i with pageref := n }).opentab j).file =
      (s.opentab j).file := by
    intro j
    by_cases hj : j = i
    · subst hj
      simp [Server.setOpen]
    · simp [Server.setOpen, hj]
  refine ⟨h.sound.of_calm hcalm, h.lock, fun j f hf => ?_, fun j hj => ?_⟩
  · rw [hfile] at hf
    exact (h.handles j f hf).after (h.sound.later_of_calm hcalm)
  · rw [hfile]
    by_cases hji : j = i
    · exact h.mapped j (hji ▸ hi)
    · have hj : 1 < (s.opentab j).pageref := by simpa [Server.setOpen, hji] using hj
      exact h.mapped j hj

theorem step_fill {l : Loc} {w : Nat} (hstep : s.step (.fill l w) = some t) : t = s.put l w := by
  simp only [step] at hstep
  split at hstep
  · exact (some.inj hstep).symm
  · cases hstep

theorem step_filefd {i n : Nat} (hstep : s.step (.filefd i n) = some t) :
    1 < (s.opentab i).pageref ∧ t = s.setOpen i { s.opentab i with pageref := n } := by
  simp only [step] at hstep
  split at hstep
  · cases hstep
  · next hopen =>
    exact ⟨not_le.mp (fun hle => hopen (.inl hle)), (some.inj hstep).symm⟩

/-- Every legal event keeps the server in order. -/
theorem Running.step (h : Running s) {e : Event} (hlegal : Legal s e)
    (hstep : s.step e = some t) : Running t := by
  cases e with
  | request =>
    obtain ⟨_, _, ht⟩ := h.handled hlegal hstep
    exact ht.running
  | fill l w =>
    obtain ⟨_, _, hf, ht, hne, hblk⟩ := hlegal
    obtain rfl := step_fill hstep
    exact (h.filled hf ht hne hblk w).1
  | filefd =>
    obtain ⟨hi, rfl⟩ := step_filefd hstep
    exact h.setOpen hi

theorem running_mount {disk : Nat → Block} (h : Formatted disk mem)
    (hmount : mount disk mem = some s) : Running s ∧ s.opentab = fun _ => ⟨none, 0, 0⟩ := by
  have hinit := fsInit_spec (E := fun _ => True) (X := fun _ _ => True) h (fun _ => trivial)
  unfold mount at hmount
  split at hmount <;> cases hmount
  next t hrun =>
  obtain ⟨hsound, hlock, htab⟩ := hinit.value hrun
  refine ⟨⟨hsound, hlock, fun i f hf => ?_, fun i hi => ?_⟩, htab⟩
  · rw [htab] at hf
    cases hf
  · rw [htab] at hi
    cases hi

end MosSmp.Fs
