import MosSmp.Mmu.Steps

/-!
The life of an address space: `env_setup_vm` with `asid_alloc`, and `env_free`
from the first table to the ASID. With these steps the invariant holds in every
state of an orderly run.
-/

namespace MosSmp

open Lib Function

namespace Mmu

variable {n : Nat} {s s' : Mmu n} {c : CpuId} {d p q : Page n} {va perm : Word}

theorem user_dirs_update (s : Mmu n) (b : Bool) (hsys : s.sysDirs p = false)
    {t : Mmu n} (hts : t.sysDirs = s.sysDirs) (htd : t.dirs = update s.dirs p b) :
    t.user = update s.user p (fun i => b && decide (i < pdx UTOP)) := by
  funext q i
  unfold user
  rw [hts, htd, update_apply, update_apply]
  split
  · next hq =>
    subst hq
    rw [hsys, Bool.false_or]
  · rfl

/-- A CPU that makes a directory has not given it an ASID. -/
theorem Inv.asidOf_held (h : s.Inv) (hp : (s.cpu c).pc.held = some p) (hd : s.dirs p = true) :
    s.asidOf p = none := by
  have hu := user_of_dirs (i := 0) hd (by decide)
  have hspare : ¬ s.pm.Spare p := by
    intro hs
    rw [(h.sound.acc.spare hs).1 0] at hu
    cases hu
  have hhand := h.hands c
  cases hpc : (s.cpu c).pc with
  | fill =>
    rw [hpc] at hhand hp
    cases hp
    exact absurd hhand.2.2.2.1 hspare
  | insert src =>
    rw [hpc] at hhand hp
    cases src with
    | none =>
      cases hp
      exact absurd hhand.2.2.2 hspare
    | some => cases hp
  | built =>
    rw [hpc] at hhand hp
    cases hp
    exact hhand.2
  | _ =>
    rw [hpc] at hp
    cases hp

variable {a : Asid}

theorem Inv.dropping (h : s.Inv) (ha : (s.cpu c).pc.dropping = some a) :
    s.asidBitmap a = true ∧ ∀ q, s.asidOf q ≠ some a := by
  have hhand := h.hands c
  cases hpc : (s.cpu c).pc with
  | dropAsid =>
    rw [hpc] at hhand ha
    cases ha
    exact hhand
  | _ =>
    rw [hpc] at ha
    cases ha

/-- What `env_setup_vm` has done when it leaves its section. -/
structure NewSpace (s t : Mmu n) (p : Page n) : Prop where
  free : s.pm.Free p
  acc : t.pm.Accounted t.user t.own
  user : t.user = update s.user p (fun i => true && decide (i < pdx UTOP))
  slots : t.pm.slots t.user = s.pm.slots s.user
  mem : ∀ q, q ≠ p → t.pm.mem q = s.pm.mem q
  word : t.pm.mem p = newDirectory s.pm s.basePgdir p
  idle : ∀ q, q ≠ p → t.pm.ppRef q = s.pm.ppRef q ∧ (t.pm.Free q → s.pm.Free q)
  dirs : t.dirs = update s.dirs p true
  own : ∀ q, s.own q ≤ t.own q
  rest : t.sysDirs = s.sysDirs ∧ t.basePgdir = s.basePgdir ∧ t.asidOf = s.asidOf ∧
    t.asidBitmap = s.asidBitmap

variable {m : Pmap n} {i : Idx}

theorem newDirectory_below (hi : i < pdx UTOP) : newDirectory m d p i = 0 := by
  unfold newDirectory
  rw [if_neg (fun h => absurd h.1 (not_le.mpr hi)), if_neg]
  rintro rfl
  exact absurd hi (by decide)

theorem newDirectory_above (hi : pdx UVPT < i) : newDirectory m d p i = 0 := by
  unfold newDirectory
  rw [if_neg (fun h => absurd h.2 (not_lt.mpr hi.le)), if_neg hi.ne']

theorem Sound.sysDirs_of_free (h : s.Sound) (hp : s.pm.Free p) : s.sysDirs p = false := by
  have hno := (h.acc.unused_of_free hp).1 0
  exact (Bool.or_eq_false_iff.mp hno).1

theorem Sound.newSpace (h : s.Sound) (ha : s.pm.pageAlloc = .ok (p, m)) (pc : MmuPc n) :
    NewSpace s ({ s.setPm { m.incref p with
            mem := update m.mem p (newDirectory s.pm s.basePgdir p) } with
          dirs := update s.dirs p true
          own := update s.own p (s.own p + 1) }.goto c pc) p := by
  obtain ⟨_, hfree, href, _, _, hmem, hiff⟩ := h.acc.pageAlloc ha
  have hblank : ∀ i, (true && decide (i < pdx UTOP)) = true →
      pteValid (update m.mem p (newDirectory s.pm s.basePgdir p) p i) = false := by
    intro i hi
    rw [update_self, newDirectory_below (by simpa using hi)]
    exact pteValid_zero
  have hnew : Pmap.Accounted { m.incref p with
        mem := update m.mem p (newDirectory s.pm s.basePgdir p) }
        (update s.user p (fun i => true && decide (i < pdx UTOP)))
        (update s.own p (s.own p + 1)) ∧
      Pmap.slots { m.incref p with
        mem := update m.mem p (newDirectory s.pm s.basePgdir p) }
        (update s.user p (fun i => true && decide (i < pdx UTOP))) =
        s.pm.slots s.user :=
    h.acc.newDir ha rfl rfl (fun q hq => update_of_ne hq _ _) hblank
  have huser := user_dirs_update s true (h.sysDirs_of_free hfree) (t := { s.setPm
      { m.incref p with mem := update m.mem p (newDirectory s.pm s.basePgdir p) } with
        dirs := update s.dirs p true
        own := update s.own p (s.own p + 1) }.goto c pc) rfl rfl
  refine ⟨hfree, ?_, huser, ?_, fun q hq => ?_, update_self .., fun q hq => ⟨?_, ?_⟩,
    rfl, fun q => ?_, rfl, rfl, rfl, rfl⟩
  · rw [huser]
    exact hnew.1
  · rw [huser]
    exact hnew.2
  · exact (update_of_ne hq _ _).trans (hmem q hq)
  · exact (update_of_ne hq _ _).trans (congrFun href q)
  · exact fun hq' => ((hiff q).mp hq').2
  · show s.own q ≤ update s.own p (s.own p + 1) q
    rw [update_apply]
    split
    · next heq =>
      subst heq
      omega
    · exact le_rfl

section

variable (k : NewSpace s s' p)
include k

theorem NewSpace.dirs_iff : s'.dirs q = true ↔ q = p ∨ s.dirs q = true := by
  rw [k.dirs, update_apply]
  split
  · next heq => simp [heq]
  · next hne => simp [hne]

theorem NewSpace.ne_of_dirs (h : s.Sound) (hq : s.dirs q = true) : q ≠ p := by
  rintro rfl
  exact h.not_free hq k.free

theorem NewSpace.sound (h : s.Sound) : s'.Sound := by
  obtain ⟨hsys, hbase, hasid, hbits⟩ := k.rest
  have hbp : s.basePgdir ≠ p := by
    rintro heq
    have hno := h.sysDirs_of_free k.free
    rw [← heq, h.base] at hno
    cases hno
  refine ⟨k.acc, ?_, fun q hq => ?_, fun i hlo hhi => ?_, fun q i hq hlo hhi => ?_,
    fun q hq => ?_, fun q i hq hi hv => ?_, fun q a hq => ?_, ?_⟩
  · rw [hsys, hbase]
    exact h.base
  · rw [hsys]
    rcases k.dirs_iff.mp hq with rfl | hq
    · exact h.sysDirs_of_free k.free
    · exact h.split q hq
  · rw [hbase, k.mem _ hbp]
    exact h.baseIn i hlo hhi
  · rw [hbase, k.mem _ hbp]
    rcases k.dirs_iff.mp hq with rfl | hq
    · rw [k.word]
      unfold newDirectory
      rw [if_pos ⟨hlo, hhi⟩]
    · rw [k.mem q (k.ne_of_dirs h hq)]
      exact h.kern q i hq hlo hhi
  · rcases k.dirs_iff.mp hq with rfl | hq
    · rw [k.word]
      unfold newDirectory
      rw [if_neg (fun heq => absurd heq.2 (lt_irrefl _)), if_pos rfl]
    · rw [k.mem q (k.ne_of_dirs h hq)]
      exact h.self q hq
  · rcases k.dirs_iff.mp hq with rfl | hq
    · rw [k.word, newDirectory_above hi] at hv
      cases hv
    · rw [k.mem q (k.ne_of_dirs h hq)] at hv ⊢
      obtain ⟨p', hp', hown, hplain⟩ := h.extra q i hq hi hv
      refine ⟨p', hp', hown.trans_le (k.own p'), ?_⟩
      by_contra hdir
      rcases k.dirs_iff.mp (by simpa using hdir) with rfl | hdir
      · exact h.acc.not_free_of_own hown k.free
      · rw [hplain] at hdir
        cases hdir
  · rw [hasid] at hq
    rw [hbits]
    obtain ⟨hdir, hbit⟩ := h.live q a hq
    exact ⟨k.dirs_iff.mpr (.inr hdir), hbit⟩
  · rw [hasid]
    exact h.asids

theorem NewSpace.keeps (h : s.Inv) : Keeps s s' (s.cpu c).pc := by
  obtain ⟨_, _, hasid, hbits⟩ := k.rest
  have hne : ∀ q ∈ (s.cpu c).pc.uses, q ≠ p := by
    intro q hq
    obtain ⟨a, hdir, _⟩ := (h.hands c).live hq
    exact k.ne_of_dirs h.sound hdir
  have htable : ∀ q i, s'.tableAt q i = s.tableAt q i := by
    intro q i
    exact congrFun k.slots (.inl (q, i))
  refine ⟨fun q hq => ⟨?_, by rw [hasid]⟩, fun q _ hdir => k.mem q (k.ne_of_dirs h.sound hdir),
    fun q _ i t ht => ?_, fun q i j _ => congrFun k.slots (.inr (q, i, j)),
    fun q hq hspare => ?_, fun q _ hdir => ?_, fun a _ hbit hno => ?_⟩
  · rw [k.dirs, update_of_ne (hne q hq)]
  · refine ⟨(htable q i).trans ht, k.mem t ?_⟩
    rintro rfl
    exact h.sound.acc.not_free_of_slot (x := .inl (q, i)) ht k.free
  · have hqp : q ≠ p := by
      rintro rfl
      exact hspare.1 k.free
    obtain ⟨href, hfree⟩ := k.idle q hqp
    exact ⟨⟨fun hq' => hspare.1 (hfree hq'), href.trans hspare.2⟩, k.mem q hqp⟩
  · rw [hasid]
    exact ⟨k.dirs_iff.mpr (.inr hdir), id⟩
  · rw [hbits, hasid]
    exact ⟨hbit, hno⟩

end

/-- `env_setup_vm`. -/
theorem Inv.setupVm_step (h : s.Inv) (ha : s.pm.pageAlloc = .ok (p, m)) :
    Inv ({ s.setPm { m.incref p with
            mem := update m.mem p (newDirectory s.pm s.basePgdir p) } with
          dirs := update s.dirs p true
          own := update s.own p (s.own p + 1) }.goto c (.built p)) := by
  have k := h.sound.newSpace (c := c) ha (.built p)
  refine h.ofStep (k.sound h.sound) (pc_goto ..) (congrArg _ (pc_goto_other ..)) (k.keeps h)
    ⟨k.dirs_iff.mpr (.inl rfl), ?_⟩ ⟨fun q hq hq' => ?_, nofun, nofun, nofun, nofun, nofun⟩
  · cases hasid : s.asidOf p with
    | none => exact hasid
    | some a => exact absurd k.free (h.sound.not_free (h.sound.live p a hasid).1)
  · cases hq
    exact h.held_not_free hq' k.free

/-- `asid_alloc` gives the new directory an ASID. -/
theorem Inv.asidAlloc_step {bitmap : Asid → Bool} (h : s.Inv) (hpc : (s.cpu c).pc = .built p)
    (ha : asidAlloc s.asidBitmap = some (a, bitmap)) :
    Inv ({ s with
      asidBitmap := bitmap
      asidOf := update s.asidOf p (some a) }.goto c .rest) := by
  obtain ⟨hclear, rfl⟩ := asidAlloc_some ha
  have hhand := h.hand_of hpc
  have hfits := h.fits_of hpc
  obtain ⟨hdir, hnone⟩ := hhand
  have hset : ∀ b, s.asidBitmap b = true → update s.asidBitmap a true b = true := by
    intro b hb
    rw [update_apply]
    split
    · rfl
    · exact hb
  have hasid : ∀ q b, update s.asidOf p (some a) q = some b →
      (q = p ∧ b = a) ∨ s.asidOf q = some b := by
    intro q b hq
    rw [update_apply] at hq
    split at hq
    · next heq => exact .inl ⟨heq, (Option.some.inj hq).symm⟩
    · exact .inr hq
  have hnew : ∀ q, s.asidOf q ≠ some a := by
    intro q hq
    have hbit := (h.sound.live q a hq).2
    rw [hclear] at hbit
    cases hbit
  refine h.ofStep ⟨h.sound.acc, h.sound.base, h.sound.split, h.sound.baseIn, h.sound.kern,
    h.sound.self, h.sound.extra, fun q b hq => ?_, fun q q' b hq hq' => ?_⟩ (pc_goto ..)
    (congrArg _ (pc_goto_other ..)) ⟨fun q hq => ⟨rfl, ?_⟩, fun _ _ _ => rfl,
      fun _ _ _ _ ht => ⟨ht, rfl⟩, fun _ _ _ _ => rfl, fun _ _ hspare => ⟨hspare, rfl⟩,
      fun q hq hdir => ⟨hdir, fun hq' => ?_⟩, fun b _ hbit hno => ⟨hset b hbit, fun q hq => ?_⟩⟩
    trivial .rest
  · rcases hasid q b hq with ⟨rfl, rfl⟩ | hq
    · exact ⟨hdir, update_self ..⟩
    · obtain ⟨hdir', hbit⟩ := h.sound.live q b hq
      exact ⟨hdir', hset b hbit⟩
  · rcases hasid q b hq with ⟨hqp, hb⟩ | hold₁ <;> rcases hasid q' b hq' with ⟨hqp', hb'⟩ | hold₂
    · exact hqp.trans hqp'.symm
    · exact absurd (hb ▸ hold₂) (hnew q')
    · exact absurd (hb' ▸ hold₁) (hnew q)
    · exact h.sound.asids q q' b hold₁ hold₂
  · refine update_of_ne ?_ _ _
    rintro rfl
    obtain ⟨b, _, hlive⟩ := (h.hands (other c)).live hq
    rw [hnone] at hlive
    cases hlive
  · refine (update_of_ne ?_ _ _).trans hq'
    rintro rfl
    exact hfits.held q rfl hq
  · rcases hasid q b hq with ⟨rfl, rfl⟩ | hq
    · rw [hclear] at hbit
      cases hbit
    · exact hno q hq

/-- What `env_free` has done when it has given up the directory. -/
structure DroppedSpace (s t : Mmu n) (d : Page n) : Prop where
  acc : t.pm.Accounted t.user t.own
  mem : t.pm.mem = s.pm.mem
  user : ∀ q, q ≠ d → t.user q = s.user q
  idle : ∀ q, q ≠ d → t.pm.ppRef q = s.pm.ppRef q ∧ (t.pm.Free q → s.pm.Free q)
  dirs : t.dirs = update s.dirs d false
  asidOf : t.asidOf = update s.asidOf d none
  own : ∀ q, q ≠ d → t.own q = s.own q
  rest : t.sysDirs = s.sysDirs ∧ t.basePgdir = s.basePgdir ∧ t.asidBitmap = s.asidBitmap

section

variable (k : DroppedSpace s s' d)
include k

theorem DroppedSpace.dirs_of (hq : s'.dirs q = true) : q ≠ d ∧ s.dirs q = true := by
  rw [k.dirs, update_apply] at hq
  split at hq
  · cases hq
  · next hne => exact ⟨hne, hq⟩

theorem DroppedSpace.asidOf_of (hq : s'.asidOf q = some a) : q ≠ d ∧ s.asidOf q = some a := by
  rw [k.asidOf, update_apply] at hq
  split at hq
  · cases hq
  · next hne => exact ⟨hne, hq⟩

theorem DroppedSpace.sound (h : s.Sound) (hd : s.dirs d = true) : s'.Sound := by
  obtain ⟨hsys, hbase, hbits⟩ := k.rest
  refine ⟨k.acc, ?_, fun q hq => ?_, fun i hlo hhi => ?_, fun q i hq hlo hhi => ?_,
    fun q hq => ?_, fun q i hq hi hv => ?_, fun q a hq => ?_, fun q q' a hq hq' => ?_⟩
  · rw [hsys, hbase]
    exact h.base
  · rw [hsys]
    exact h.split q (k.dirs_of hq).2
  · rw [hbase, k.mem]
    exact h.baseIn i hlo hhi
  · rw [hbase, k.mem]
    exact h.kern q i (k.dirs_of hq).2 hlo hhi
  · rw [k.mem]
    exact h.self q (k.dirs_of hq).2
  · rw [k.mem] at hv ⊢
    obtain ⟨p, hp, hown, hplain⟩ := h.extra q i (k.dirs_of hq).2 hi hv
    have hne : p ≠ d := by
      rintro rfl
      rw [hd] at hplain
      cases hplain
    refine ⟨p, hp, ?_, ?_⟩
    · rw [k.own p hne]
      exact hown
    · rw [k.dirs, update_of_ne hne]
      exact hplain
  · obtain ⟨hne, hq⟩ := k.asidOf_of hq
    obtain ⟨hdir, hbit⟩ := h.live q a hq
    rw [k.dirs, update_of_ne hne, hbits]
    exact ⟨hdir, hbit⟩
  · exact h.asids q q' a (k.asidOf_of hq).2 (k.asidOf_of hq').2

theorem DroppedSpace.keeps (h : s.Inv) (hd : s.Live ⟨d, a⟩) (hfree : d ∉ (s.cpu c).pc.uses)
    (halone : (s.cpu c).pc.alone ≠ some d) : Keeps s s' (s.cpu c).pc := by
  obtain ⟨_, _, hbits⟩ := k.rest
  have hne : ∀ q ∈ (s.cpu c).pc.uses, q ≠ d := by
    rintro q hq rfl
    exact hfree hq
  have htable : ∀ q, q ≠ d → ∀ i, s'.tableAt q i = s.tableAt q i := by
    intro q hq i
    unfold Mmu.tableAt Pmap.tableAt
    rw [k.user q hq, k.mem]
  refine ⟨fun q hq => ⟨?_, ?_⟩, fun q _ _ => by rw [k.mem],
    fun q hq i t ht => ⟨?_, by rw [k.mem]⟩, fun q i j hx => ?_, fun q _ hspare => ?_,
    fun q hq hdir => ?_, fun b _ hbit hno => ⟨?_, fun q hq => ?_⟩⟩
  · rw [k.dirs, update_of_ne (hne q hq)]
  · rw [k.asidOf, update_of_ne (hne q hq)]
  · refine (htable q ?_ i).trans ht
    rintro rfl
    exact halone hq
  · show Option.bind (s'.tableAt q i) _ = Option.bind (s.tableAt q i) _
    rw [htable q (hne q (uses_of_source hx)), k.mem]
  · have hqd : q ≠ d := by
      rintro rfl
      have hu := user_of_dirs (i := 0) hd.1 (by decide)
      rw [(h.sound.acc.spare hspare).1 0] at hu
      cases hu
    obtain ⟨href, hfree'⟩ := k.idle q hqd
    exact ⟨⟨fun hq' => hspare.1 (hfree' hq'), href.trans hspare.2⟩, by rw [k.mem]⟩
  · have hqd : q ≠ d := by
      rintro rfl
      cases (h.asidOf_held hq hdir).symm.trans hd.2
    rw [k.dirs, k.asidOf, update_of_ne hqd, update_of_ne hqd]
    exact ⟨hdir, id⟩
  · rw [hbits]
    exact hbit
  · exact hno q (k.asidOf_of hq).2

end

variable {sp : Space n}

section

variable (h : s.Inv) (hpc : (s.cpu c).pc = .dropDir sp) (hdec : s.pm.pageDecref sp.pgdir = some m)
include h hpc hdec

theorem Inv.droppedSpace :
    DroppedSpace s ({ s.setPm m with
      dirs := update s.dirs sp.pgdir false
      asidOf := update s.asidOf sp.pgdir none
      own := update s.own sp.pgdir (s.own sp.pgdir - 1) }.goto c (.dropAsid sp.asid))
      sp.pgdir := by
  have hhand := h.hand_of hpc
  obtain ⟨⟨hdir, _⟩, hempty⟩ := hhand
  have hu := user_of_dirs (i := 0) hdir (by decide)
  have hown := h.sound.acc.dirs _ _ hu
  have hnone : ∀ i, s.pm.tableAt s.user sp.pgdir i = none := by
    intro i
    by_cases hi : i < pdx UTOP
    · exact Pmap.tableAt_of_not_valid (hempty i hi)
    · unfold Pmap.tableAt
      rw [h.sound.user_above hdir (not_lt.mp hi)]
      rfl
  obtain ⟨_, hdec₁, hacc⟩ := (h.sound.acc.dropDir hnone).release hown
    (fun i hi => by rw [update_self] at hi; cases hi)
  cases hdec₁.symm.trans hdec
  obtain ⟨_, hdec₂, _, href, _, _, hfree⟩ := Pmap.pageDecref_spec h.sound.acc.list
    h.sound.acc.idle (h.sound.not_free hdir) (h.sound.acc.ref_of_own hown)
  cases hdec₂.symm.trans hdec
  have huser := user_dirs_update s false (h.sound.split _ hdir) (p := sp.pgdir)
    (t := { s.setPm m with
      dirs := update s.dirs sp.pgdir false
      asidOf := update s.asidOf sp.pgdir none
      own := update s.own sp.pgdir (s.own sp.pgdir - 1) }.goto c (.dropAsid sp.asid))
    rfl rfl
  refine ⟨?_, Pmap.mem_pageDecref hdec, fun q hq => ?_, fun q hq => ⟨?_, fun hq' => ?_⟩, rfl, rfl,
    fun q hq => update_of_ne hq _ _, rfl, rfl, rfl⟩
  · rw [huser]
    exact hacc
  · rw [huser, update_of_ne hq]
  · show m.ppRef q = _
    rw [href, update_of_ne hq]
  · exact ((hfree q).mp hq').resolve_right (fun hlast => hq hlast.1)

/-- `env_free` gives up the directory. -/
theorem Inv.dropDir_step :
    Inv ({ s.setPm m with
      dirs := update s.dirs sp.pgdir false
      asidOf := update s.asidOf sp.pgdir none
      own := update s.own sp.pgdir (s.own sp.pgdir - 1) }.goto c (.dropAsid sp.asid)) := by
  have k := h.droppedSpace hpc hdec
  have hhand := h.hand_of hpc
  have hfits := h.fits_of hpc
  obtain ⟨⟨hdir, hasid⟩, _⟩ := hhand
  refine h.ofStep (k.sound h.sound hdir) (pc_goto ..) (congrArg _ (pc_goto_other ..))
    (k.keeps h ⟨hdir, hasid⟩ (hfits.alone _ rfl) (hfits.uses _ (List.mem_singleton_self _)))
    ⟨(h.sound.live _ _ hasid).2, fun q hq => ?_⟩ ⟨nofun, fun a ha ha' => ?_, nofun, nofun, nofun,
      nofun⟩
  · obtain ⟨hne, hq⟩ := k.asidOf_of hq
    exact hne (h.sound.asids q sp.pgdir sp.asid hq hasid)
  · cases ha
    exact (h.dropping ha').2 sp.pgdir hasid

end

/-- `asid_free`. -/
theorem Inv.dropAsid_step (h : s.Inv) (hpc : (s.cpu c).pc = .dropAsid a) :
    Inv ({ s with asidBitmap := update s.asidBitmap a false }.goto c
      (.flush none a (uvptVa (pdx UVPT)) .rest)) := by
  have hhand := h.hand_of hpc
  have hfits := h.fits_of hpc
  have hset : ∀ b, b ≠ a → update s.asidBitmap a false b = s.asidBitmap b :=
    fun b hb => update_of_ne hb _ _
  refine h.ofStep (c := c) ⟨h.sound.acc, h.sound.base, h.sound.split, h.sound.baseIn, h.sound.kern,
    h.sound.self, h.sound.extra, fun q b hq => ?_, h.sound.asids⟩ (pc_goto ..) (congrArg _
    (pc_goto_other ..)) ⟨fun _ _ => ⟨rfl, rfl⟩, fun _ _ _ => rfl, fun _ _ _ _ ht => ⟨ht, rfl⟩, fun _
    _ _ _ => rfl, fun _ _ hspare => ⟨hspare, rfl⟩, fun _ _ hdir => ⟨hdir, id⟩, fun b hb hbit hno =>
    ⟨?_, hno⟩⟩ ⟨rfl, trivial, trivial⟩ (.ofUses rfl rfl rfl rfl rfl nofun)
  · obtain ⟨hdir, hbit⟩ := h.sound.live q b hq
    refine ⟨hdir, (hset b ?_).trans hbit⟩
    rintro rfl
    exact hhand.2 q hq
  · refine (hset b ?_).trans hbit
    rintro rfl
    exact hfits.drops b rfl hb

theorem Inv.scanEnd_step {i : Nat} (h : s.Inv) (hpc : (s.cpu c).pc = .scan sp i)
    (hnone : nextValid (s.pm.mem sp.pgdir) i ((pdx UTOP).val - i) = none) :
    (s.goto c (.dropDir sp)).Inv := by
  have hhand := h.hand_of hpc
  have hfits := h.fits_of hpc
  obtain ⟨hlive, hbelow⟩ := hhand
  refine h.goto ⟨hlive, fun k hk => ?_⟩
    (hfits.narrow rfl rfl rfl rfl (fun _ hq => hq) (fun _ hq => hq))
  have hk' := Fin.lt_def.mp hk
  by_cases hki : k.val < i
  · exact hbelow k hki hk
  · exact nextValid_none hnone (by omega) k (by omega) (by omega)

variable {t : Page n}

theorem Inv.scanTable_step {i : Nat} {k : Idx} (h : s.Inv) (hpc : (s.cpu c).pc = .scan sp i)
    (hsome : nextValid (s.pm.mem sp.pgdir) i ((pdx UTOP).val - i) = some k)
    (ht : pa2page (pteAddr (s.pm.mem sp.pgdir k)) = some t) : (s.goto c (.strip sp k t 0)).Inv := by
  have hhand := h.hand_of hpc
  have hfits := h.fits_of hpc
  obtain ⟨hlive, hbelow⟩ := hhand
  have htop := pdx_utop.1
  have hi : i < 509 := by
    by_contra hge
    rw [show (pdx UTOP).val - i = 0 from by omega] at hsome
    cases hsome
  obtain ⟨_, _, hv, hmin⟩ := nextValid_some hsome (by omega)
  have hk : k < pdx UTOP := Fin.lt_def.mpr (by omega)
  refine h.goto ⟨hlive, hk, ?_, fun j hj => ?_, fun j hj => absurd hj (Nat.not_lt_zero _)⟩
    (hfits.narrow rfl rfl rfl rfl (fun _ hq => hq) (fun _ hq => hq))
  · unfold Mmu.tableAt Pmap.tableAt entryPage
    rw [user_of_dirs hlive.1 hk, if_pos rfl, if_pos hv, ← pa2page_pteAddr, ht]
  · by_cases hji : j.val < i
    · exact hbelow j hji (hj.trans hk)
    · exact hmin j (by omega) hj

variable {j : Nat}

theorem Inv.stripPage_step {i k : Idx} (h : s.Inv) (hpc : (s.cpu c).pc = .strip sp i t j)
    (hsome : nextValid (s.pm.mem t) j (1024 - j) = some k)
    (hremove : s.removeStep c sp (vaOf i k) (.strip sp i t (k.val + 1)) = some s') : s'.Inv := by
  have hhand := h.hand_of hpc
  have hfits := h.fits_of hpc
  obtain ⟨hlive, hi, ht, hbelow, hstripped⟩ := hhand
  have hfree := hfits.alone _ rfl
  have hj : j < 1024 := by
    by_contra hge
    rw [show 1024 - j = 0 from by omega] at hsome
    cases hsome
  obtain ⟨_, _, _, hmin⟩ := nextValid_some hsome (by omega)
  have hva : pdx (vaOf i k) < pdx UTOP := by
    rw [pdx_vaOf]
    exact hi
  have hres : (MmuPc.strip sp i t (k.val + 1)).resumes (some sp.pgdir) := rfl
  refine h.remove_step hlive hva (hfits.uses _ (List.mem_singleton_self _))
    (fun hx => hfree (uses_of_source hx)) hres hfits.alone
    (fun t' hs htables hmem hnone htab => ?_) hremove
  rw [pdx_vaOf, ptx_vaOf] at hnone
  have hkeep : ∀ q x, pteValid (s.pm.mem q x) = false → pteValid (t'.pm.mem q x) = false := by
    intro q x hv
    rcases hmem q x with hsame | hzero
    · rw [hsame]
      exact hv
    · rw [hzero]
      exact pteValid_zero
  have ht' : t'.tableAt sp.pgdir i = some t := (htables i).trans ht
  refine ⟨?_, hi, ht', fun x hx => hkeep _ _ (hbelow x hx), fun x hx => ?_⟩
  · unfold Live
    rw [hs.dirs, hs.asidOf]
    exact hlive
  · rcases Nat.lt_succ_iff_lt_or_eq.mp hx with hx | hx
    · apply hkeep
      by_cases hxj : x.val < j
      · exact hstripped x hxj
      · exact hmin x (by omega) hx
    · obtain rfl := Fin.ext hx
      cases hv : pteValid (t'.pm.mem t x) with
      | false => rfl
      | true =>
        obtain ⟨_, hp, _⟩ := htab.pageAt_of_valid ht' hv
        cases hnone.symm.trans hp

theorem Hand.blank (h : s.Hand (.strip sp i t j))
    (hnone : nextValid (s.pm.mem t) j (1024 - j) = none) : s.pm.Blank t := by
  obtain ⟨_, _, _, _, hstripped⟩ := h
  intro x
  by_cases hx : x.val < j
  · exact hstripped x hx
  · exact nextValid_none hnone (by omega) x (by omega) (by omega)

theorem Inv.stripTable_step (h : s.Inv) (hpc : (s.cpu c).pc = .strip sp i t j)
    (hnone : nextValid (s.pm.mem t) j (1024 - j) = none)
    (hdec : (s.pm.write (sp.pgdir, i) 0).pageDecref t = some m) :
    ((s.setPm m).goto c
      (.flush (some sp.pgdir) sp.asid (uvptVa i) (.scan sp (i.val + 1)))).Inv := by
  have hhand := h.hand_of hpc
  have hfits := h.fits_of hpc
  have hblank := hhand.blank hnone
  obtain ⟨hlive, _, ht, hbelow, _⟩ := hhand
  obtain ⟨_, hdec', hacc, hl, hmem, hpages⟩ := h.sound.acc.releaseTable_local ht hblank
  cases hdec'.symm.trans hdec
  refine h.gotoLocal hlive.1 (hfits.uses _ (List.mem_singleton_self _)) hl hacc
    (fun q k j => .inl (hpages q k j)) nofun ⟨hlive, rfl, hlive, fun k hk _ => ?_⟩
    (hfits.narrow rfl rfl rfl rfl (fun _ hq => hq) (fun _ hq => hq))
  show pteValid (m.mem sp.pgdir k) = false
  rw [hmem]
  split
  · exact pteValid_zero
  · next hne =>
    apply hbelow
    rcases Nat.lt_succ_iff_lt_or_eq.mp hk with hk | hk
    · exact hk
    · exact absurd ⟨rfl, Fin.ext hk⟩ hne

variable {o : Option (Page n)} {next : MmuPc n}

/-- The local flush changes a TLB only. -/
theorem Inv.flush_step (h : s.Inv) (hpc : (s.cpu c).pc = .flush o a va next) :
    ((s.flushLocal c a va).goto c (.await o a va false next)).Inv := by
  have hhand := h.hand_of hpc
  have hfits := h.fits_of hpc
  refine h.move (c := c) ⟨rfl, rfl, rfl, rfl, rfl, rfl⟩ rfl (pc_goto ..) ?_ hhand
    (hfits.narrow rfl rfl rfl rfl (fun _ hq => hq) (fun _ hq => hq))
  rw [pc_goto_other, cpu_flushLocal_other]

theorem Inv.resume_step {acked : Bool} (h : s.Inv) (hpc : (s.cpu c).pc = .await o a va acked next) :
    (s.goto c next).Inv := by
  have hhand := h.hand_of hpc
  have hfits := h.fits_of hpc
  obtain ⟨_, hres, hnext⟩ := hhand
  obtain ⟨hheld, hdrop, hsource, htarget⟩ := plain_of_resumes hres
  refine h.goto hnext (hfits.narrow hheld hdrop hsource htarget (fun q hq => ?_) (fun _ hq => hq))
  rw [uses_of_resumes hres hq]
  exact List.mem_singleton_self _

theorem Inv.serve_step (h : s.Inv) (hpc : (s.cpu (other c)).pc = .await o a va false next) :
    ((s.flushLocal c a va).goto (other c) (.await o a va true next)).Inv := by
  have hhand := h.hand_of hpc
  have hfits := h.fits_of hpc
  refine h.move (c := other c) ⟨rfl, rfl, rfl, rfl, rfl, rfl⟩ rfl (pc_goto ..) ?_ hhand
    (hfits.narrow rfl rfl rfl rfl (fun _ hq => hq) (fun _ hq => hq))
  rw [pc_goto_other, other_other]
  unfold flushLocal
  rw [cpu_upd_self]

theorem pc_evict (s : Mmu n) (c b : CpuId) (i : Nat) :
    ((s.upd c (fun x => { x with tlb := x.tlb.eraseIdx i })).cpu b).pc = (s.cpu b).pc := by
  rcases eq_or_eq_other c b with rfl | rfl
  · rw [cpu_upd_self]
  · rw [cpu_upd_other]

theorem Inv.evict_step {i : Nat} (h : s.Inv) :
    (s.upd c (fun x => { x with tlb := x.tlb.eraseIdx i })).Inv := by
  refine ⟨h.sound.ofSame ⟨rfl, rfl, rfl, rfl, rfl, rfl⟩ rfl, fun b => ?_, fun b => ?_⟩
  · rw [pc_evict]
    exact (h.hands b).frame (.ofSame ⟨rfl, rfl, rfl, rfl, rfl, rfl⟩ rfl)
  · rw [pc_evict, pc_evict]
    exact h.fits b

theorem Orderly.of_pc {pc : MmuPc n} (hok : s.Orderly (.step c)) (hpc : (s.cpu c).pc = pc) :
    s.InsertOrderly pc := by
  subst hpc
  exact hok

/-- Every orderly step keeps the invariant. -/
theorem Inv.step {l : MmuLabel n} (hn : n ≤ 2 ^ 20) (h : s.Inv) (hok : s.Orderly l)
    (hstep : s.exec l = some s') : s'.Inv := by
  cases exec_cases hstep with
  | same => exact h
  | touch hpc ha hva => exact h.touch_step ha hva hok
  | memAlloc hpc ha hva halloc => exact h.memAlloc_step ha hva hok halloc
  | share hpc hb ha hsrcva hdstva hlook => exact h.share_step hb ha hsrcva hdstva hok hlook
  | unmap hpc ha hva hremove =>
    exact h.remove_step ⟨(h.sound.live _ _ ha).1, ha⟩ hva hok.1 hok.2 (MmuPc.resumes_rest _)
      (fun _ hq => by cases hq) (fun _ _ _ _ _ _ => trivial) hremove
  | envFree hpc ha => exact h.envFree_step ha hok
  | setupVm hpc halloc => exact h.setupVm_step halloc
  | serve hpoll hpc => exact h.serve_step hpc
  | evict => exact h.evict_step
  | read hpc => exact h.read_step hpc
  | passiveAlloc hpc hlook hva halloc => exact h.passiveAlloc_step hpc hlook hva halloc
  | fill hpc hrun => exact h.fill_step hn hpc (hok.of_pc hpc) hrun
  | install =>
    refine h.move ⟨rfl, rfl, rfl, rfl, rfl, rfl⟩ rfl (pc_goto ..) ?_ trivial .rest
    rw [pc_goto_other, cpu_upd_other]
  | insertFails hpc hrun =>
    exact h.move ⟨rfl, rfl, rfl, rfl, rfl, rfl⟩ (h.insertFails hn hpc (hok.of_pc hpc) hrun)
      (pc_goto ..) (congrArg _ (pc_goto_other ..)) trivial .rest
  | insert hpc hrun => exact h.insert_step hn hpc (hok.of_pc hpc) hrun
  | noAsid =>
    exact h.move ⟨rfl, rfl, rfl, rfl, rfl, rfl⟩ rfl (pc_goto ..)
      (congrArg _ (pc_goto_other ..)) trivial .rest
  | asidAlloc hpc ha => exact h.asidAlloc_step hpc ha
  | flush hpc => exact h.flush_step hpc
  | resume hpc => exact h.resume_step hpc
  | scanEnd hpc hnone => exact h.scanEnd_step hpc hnone
  | scanTable hpc hsome ht => exact h.scanTable_step hpc hsome ht
  | stripPage hpc hsome hremove => exact h.stripPage_step hpc hsome hremove
  | stripTable hpc hnone hdec => exact h.stripTable_step hpc hnone hdec
  | dropDir hpc hdec => exact h.dropDir_step hpc hdec
  | dropAsid hpc => exact h.dropAsid_step hpc

end Mmu

theorem Mmu.Inv.start {memsize : Word} {s : Mmu (npage memsize)} (h : (mmu memsize).init s) :
    s.Inv := by
  obtain ⟨f, hf, hpm, hsys, hown, hbase, hbaseIn, hnone, _, hcpu⟩ := h
  have hacc := Frames.inv_of_allowed hf
  have hno : ∀ {d : Page (npage memsize)}, s.dirs d = true → False := by
    intro d hd
    rw [(hnone d).1] at hd
    cases hd
  have hnoAsid : ∀ {d : Page (npage memsize)} {a : Asid}, s.asidOf d = some a → False := by
    intro d a ha
    rw [(hnone d).2] at ha
    cases ha
  have huser : s.user = f.user := by
    funext d i
    unfold Mmu.user Frames.user
    rw [hsys, (hnone d).1, Bool.false_and, Bool.or_false]
  refine ⟨⟨?_, hbase, fun d hd => (hno hd).elim, hbaseIn, fun d i hd => (hno hd).elim,
    fun d hd => (hno hd).elim, fun d k hd => (hno hd).elim, fun d a ha => (hnoAsid ha).elim,
    fun d d' a ha => (hnoAsid ha).elim⟩, fun c => ?_, fun c => ?_⟩
  · rw [huser, hpm, hown]
    exact hacc
  · rw [hcpu]
    trivial
  · rw [hcpu]
    exact .rest

/-- The invariant holds in every state of an orderly run. -/
theorem Mmu.inv_of_orderly {memsize : Word} {s : Mmu (npage memsize)}
    (hrun : (mmu memsize).ReachableUnder Mmu.Orderly s) : s.Inv := by
  apply hrun.invariant
  · intro s h
    exact Mmu.Inv.start h
  · intro s l s' _ hinv hok hstep
    exact hinv.step (npage_le memsize) hok hstep

end MosSmp
