import MosSmp.User.Pipe

/-!
A pipe that several processes share. Each process has 32 descriptors; descriptor
`i` has a page for its `Fd` and, at another address, the page of the pipe. `dup`,
`close`, `fork`, `spawn` and `exit` change these mappings one system call at a
time, and `_pipe_is_closed` compares the number of mappings of its `Fd` with that
of the pipe.

`dup` maps the pipe before the `Fd` and `close` unmaps it after the `Fd`, so that
in a process that can run a mapped `Fd` has its pipe. `fork` and `spawn` copy the
pages in the order of their addresses, all `Fd` pages before all pipes, so this
does not hold for a child in the making.
-/

namespace MosSmp.User

open Lib Function

/-- The two ends of the pipe, each with its `Fd` page. -/
inductive PipeSide
  | read
  | write
  deriving DecidableEq

def PipeSide.other : PipeSide → PipeSide
  | .read => .write
  | .write => .read

/-- `MAXFD` descriptors. -/
abbrev Slot := Fin 32

/-- What the caller of `close` does next. -/
inductive AfterClose
  | done
  | dup (old : Slot)
  | exit
  deriving DecidableEq

/-- Where a process stands. An `embryo` is made by `syscall_exofork` and cannot
run yet. `copying` and `killing` are the loop over the pages of a child, `dying`
is that of `env_free`; they count 32 `Fd` pages and then 32 pipes. -/
inductive Task (n : Nat)
  | unborn
  | embryo
  | idle
  | close (i : Slot) (next : AfterClose)
  | closeFd (i : Slot) (next : AfterClose)
  | closeData (i : Slot) (next : AfterClose)
  | closeFdAgain (i : Slot) (next : AfterClose)
  | dupData (old new : Slot)
  | dupFd (old new : Slot)
  | undoFd (new : Slot)
  | undoData (new : Slot)
  | copying (fork : Bool) (child : Fin n) (k : Nat)
  | killing (child : Fin n) (k : Nat)
  | dying (k : Nat)
  | checking (i : Slot) (c : Check)
  | checked (i : Slot) (isClosed : Bool)
  deriving DecidableEq

namespace Task

variable {n : Nat}

/-- The child whose pages the process maps or unmaps. -/
def target : Task n → Option (Fin n)
  | .copying _ c _ | .killing c _ => some c
  | _ => none

/-- The process can be scheduled. -/
def alive : Task n → Bool
  | .unborn | .embryo => false
  | _ => true

/-- The process is not in the library. -/
def free : Task n → Bool
  | .idle | .checked _ _ => true
  | _ => false

end Task

/-- After `close(i)`. -/
def AfterClose.task {n : Nat} (i : Slot) : AfterClose → Task n
  | .done => .idle
  | .dup old => .dupData old i
  | .exit => if i.val + 1 < 32 then .close (Fin.ofNat 32 (i.val + 1)) .exit else .dying 0

structure Share (n : Nat) where
  fdAt : Fin n → Slot → Option PipeSide
  dataAt : Fin n → Slot → Bool
  task : Fin n → Task n
  running : Fin n → Bool
  envRuns : Fin n → Word

inductive ShareCall (n : Nat)
  | check (i : Slot)
  | close (i : Slot)
  | dup (old new : Slot)
  | fork (child : Fin n)
  | spawn (child : Fin n)
  | exit

/-- A call, a step of a process, where `ok` says whether a `syscall_mem_map` of
the step succeeds, and the scheduling of a process. -/
inductive ShareEvent (n : Nat)
  | call (p : Fin n) (c : ShareCall n)
  | step (p : Fin n) (ok : Bool)
  | run (p : Fin n)
  | stop (p : Fin n)

namespace Share

variable {n : Nat}

def setFd (s : Share n) (p : Fin n) (i : Slot) (v : Option PipeSide) : Share n :=
  { s with fdAt := update s.fdAt p (update (s.fdAt p) i v) }

def setData (s : Share n) (p : Fin n) (i : Slot) (v : Bool) : Share n :=
  { s with dataAt := update s.dataAt p (update (s.dataAt p) i v) }

def setTask (s : Share n) (p : Fin n) (t : Task n) : Share n :=
  { s with task := update s.task p t }

/-- The descriptors of all processes. -/
def places (n : Nat) : List (Fin n × Slot) :=
  (List.finRange n).product (List.finRange 32)

/-- `pp_ref` of the `Fd` page of one end. -/
def fdCount (s : Share n) (e : PipeSide) : Nat :=
  (places n).countP (fun x => decide (s.fdAt x.1 x.2 = some e))

/-- `pp_ref` of the page of the pipe. -/
def dataCount (s : Share n) : Nat :=
  (places n).countP (fun x => s.dataAt x.1 x.2)

/-- `pageref` of the `Fd` page of descriptor `i`. -/
def fdPageref (s : Share n) (p : Fin n) (i : Slot) : Nat :=
  match s.fdAt p i with
  | some e => s.fdCount e
  | none => 0

def dataPageref (s : Share n) (p : Fin n) (i : Slot) : Nat :=
  Pipe.pageref (s.dataAt p i) s.dataCount

/-- The two pages of the 32 descriptors. -/
abbrev PAGES : Nat := 64

/-- The page with number `k` in the order of the addresses is mapped in `p`. -/
def hasPage (s : Share n) (p : Fin n) (k : Nat) : Bool :=
  if k < 32 then (s.fdAt p (Fin.ofNat 32 k)).isSome else s.dataAt p (Fin.ofNat 32 k)

def copyPage (s : Share n) (p c : Fin n) (k : Nat) : Share n :=
  if k < 32 then s.setFd c (Fin.ofNat 32 k) (s.fdAt p (Fin.ofNat 32 k))
  else s.setData c (Fin.ofNat 32 k) true

def unmapPage (s : Share n) (c : Fin n) (k : Nat) : Share n :=
  if k < 32 then s.setFd c (Fin.ofNat 32 k) none else s.setData c (Fin.ofNat 32 k) false

/-- One pass of the loop of `fork` or `spawn`. A failed `syscall_mem_map` makes
`fork` panic, which is an `exit`, and `spawn` destroy the child. -/
def copyStep (s : Share n) (p : Fin n) (fork : Bool) (c : Fin n) (k : Nat) (ok : Bool) : Share n :=
  if PAGES ≤ k then (s.setTask c .idle).setTask p .idle
  else if s.hasPage p k = false then s.setTask p (.copying fork c (k + 1))
  else if ok then (s.copyPage p c k).setTask p (.copying fork c (k + 1))
  else if fork then s.setTask p (.close 0 .exit)
  else s.setTask p (.killing c 0)

/-- A step of process `p`. -/
def taskStep (s : Share n) (p : Fin n) (ok : Bool) : Option (Share n) :=
  match s.task p with
  | .unborn | .embryo | .idle | .checked _ _ => none
  | .close i next =>
    if (s.fdAt p i).isSome then some (s.setTask p (.closeFd i next))
    else some (s.setTask p (next.task i))
  | .closeFd i next => some ((s.setFd p i none).setTask p (.closeData i next))
  | .closeData i next => some ((s.setData p i false).setTask p (.closeFdAgain i next))
  | .closeFdAgain i next => some ((s.setFd p i none).setTask p (next.task i))
  | .dupData old new =>
    if s.dataAt p old = false then some (s.setTask p (.dupFd old new))
    else if ok then some ((s.setData p new true).setTask p (.dupFd old new))
    else some (s.setTask p (.undoFd new))
  | .dupFd old new =>
    if (s.fdAt p old).isSome ∧ ok then some ((s.setFd p new (s.fdAt p old)).setTask p .idle)
    else some (s.setTask p (.undoFd new))
  | .undoFd new => some ((s.setFd p new none).setTask p (.undoData new))
  | .undoData new => some ((s.setData p new false).setTask p .idle)
  | .copying fork c k => some (s.copyStep p fork c k ok)
  | .killing c k =>
    if PAGES ≤ k then some ((s.setTask c .unborn).setTask p .idle)
    else some ((s.unmapPage c k).setTask p (.killing c (k + 1)))
  | .dying k =>
    if PAGES ≤ k then
      some { s.setTask p .unborn with running := update s.running p false }
    else some ((s.unmapPage p k).setTask p (.dying (k + 1)))
  | .checking i c =>
    match c.step (s.envRuns p) (s.fdPageref p i) (s.dataPageref p i) with
    | .inl c => some (s.setTask p (.checking i c))
    | .inr isClosed => some (s.setTask p (.checked i isClosed))

/-- `syscall_exofork` and the start of the copying. -/
def exofork (s : Share n) (p c : Fin n) (fork : Bool) : Option (Share n) :=
  if s.task c = .unborn then
    some (({ s with envRuns := update s.envRuns c 0 }.setTask c .embryo).setTask p
      (.copying fork c 0))
  else none

def callStep (s : Share n) (p : Fin n) : ShareCall n → Option (Share n)
  | .check i =>
    if (s.fdAt p i).isSome then some (s.setTask p (.checking i .loadRuns))
    else some (s.setTask p .idle)
  | .close i => some (s.setTask p (.close i .done))
  | .dup old new =>
    if (s.fdAt p old).isSome then some (s.setTask p (.close new (.dup old)))
    else some (s.setTask p .idle)
  | .fork c => s.exofork p c true
  | .spawn c => s.exofork p c false
  | .exit => some (s.setTask p (.close 0 .exit))

/-- An event on `ncpu` CPUs. `env_run` counts `env_runs`. -/
def step (ncpu : Nat) (s : Share n) : ShareEvent n → Option (Share n)
  | .call p c => if s.running p = true ∧ (s.task p).free = true then s.callStep p c else none
  | .step p ok => if s.running p = true then s.taskStep p ok else none
  | .run p =>
    if s.running p = false ∧ (s.task p).alive = true ∧
        (List.finRange n).countP s.running < ncpu then
      some { s with
        running := update s.running p true
        envRuns := update s.envRuns p (s.envRuns p + 1) }
    else none
  | .stop p => some { s with running := update s.running p false }

/-- The processes that share the pipe, between their calls; a mapped `Fd` has its
pipe. -/
structure Start (s : Share n) : Prop where
  task : ∀ p, s.task p = .idle ∨ s.task p = .unborn ∧ ∀ i, s.fdAt p i = none ∧ s.dataAt p i = false
  paired : ∀ p i, s.fdAt p i ≠ none → s.dataAt p i = true
  stopped : ∀ p, s.running p = false

end Share

def share (n ncpu : Nat) : Machine (Share n) (ShareEvent n) where
  init := Share.Start
  step := Share.step ncpu

namespace Share

variable {n ncpu : Nat} {s t : Share n} {p q c : Fin n} {i j : Slot} {e : PipeSide}

/-! ### A mapped descriptor has its pipe -/

/-- The pages with numbers below `k` are not mapped. -/
def Cleared (s : Share n) (p : Fin n) (k : Nat) : Prop :=
  ∀ i : Slot, (i.val < k → s.fdAt p i = none) ∧ (i.val + 32 < k → s.dataAt p i = false)

/-- What holds where process `p` stands. A child that is being made has no `Fd`
that its parent does not have, and it has the pipes that were copied. -/
def TaskOk (s : Share n) (p : Fin n) : Prop :=
  match s.task p with
  | .unborn => s.Cleared p PAGES
  | .closeData i _ => s.fdAt p i = none
  | .dupFd old new => s.fdAt p old ≠ none → s.dataAt p new = true
  | .undoData new => s.fdAt p new = none
  | .copying _ c k => s.task c = .embryo ∧ ∀ i : Slot,
      (s.fdAt c i ≠ none → s.fdAt p i ≠ none) ∧
      (i.val + 32 < k → s.dataAt p i = true → s.dataAt c i = true)
  | .killing c k => s.task c = .embryo ∧ s.Cleared c k
  | .dying k => s.Cleared p k
  | .checking i _ => s.fdAt p i ≠ none
  | _ => True

structure Paired (s : Share n) : Prop where
  own : ∀ p, s.task p ≠ .embryo → ∀ i, s.fdAt p i ≠ none → s.dataAt p i = true
  tasks : ∀ p, s.TaskOk p
  apart : ∀ p q c, (s.task p).target = some c → (s.task q).target = some c → p = q

theorem Paired.embryo_of_target (h : s.Paired) (hc : (s.task p).target = some c) :
    s.task c = .embryo := by
  have hok := h.tasks p
  unfold TaskOk at hok
  cases htask : s.task p with
  | copying | killing =>
    simp only [htask, Task.target] at hok hc
    cases hc
    exact hok.1
  | _ =>
    simp only [htask, Task.target] at hc
    cases hc

/-- `TaskOk` looks at the process and at the child it is making or killing. -/
theorem TaskOk.congr (h : s.TaskOk p) (htask : t.task p = s.task p) (hfd : t.fdAt p = s.fdAt p)
    (hdata : t.dataAt p = s.dataAt p)
    (hchild : ∀ c, (s.task p).target = some c →
      t.task c = s.task c ∧ t.fdAt c = s.fdAt c ∧ t.dataAt c = s.dataAt c) : t.TaskOk p := by
  unfold TaskOk Cleared at h ⊢
  rw [htask]
  cases hp : s.task p with
  | copying fork c =>
    obtain ⟨h1, h2, h3⟩ := hchild c (by rw [hp]; rfl)
    simp only [hp] at h ⊢
    rw [h1, h2, h3, hfd, hdata]
    exact h
  | killing c =>
    obtain ⟨h1, h2, h3⟩ := hchild c (by rw [hp]; rfl)
    simp only [hp] at h ⊢
    rw [h1, h2, h3]
    exact h
  | unborn | closeData | dupFd | undoData | dying | checking =>
    simp only [hp] at h ⊢
    simpa only [hfd, hdata] using h
  | _ => trivial

/-- A step that changes the processes in `W` only, where nobody else makes or kills
one of these. Only process `p` may take on a child. -/
theorem Paired.changed {W : Fin n → Prop} (h : s.Paired)
    (hother : ∀ q, ¬ W q → t.task q = s.task q ∧ t.fdAt q = s.fdAt q ∧ t.dataAt q = s.dataAt q)
    (hown : ∀ q, W q → t.task q ≠ .embryo → ∀ i, t.fdAt q i ≠ none → t.dataAt q i = true)
    (hok : ∀ q, W q → t.TaskOk q)
    (hmaker : ∀ q c, W c → (s.task q).target = some c → W q)
    (htarget : ∀ q c, W q → (t.task q).target = some c →
      (s.task q).target = some c ∨ q = p ∧ ∀ r, (s.task r).target ≠ some c) : t.Paired := by
  have hold : ∀ q c, (t.task q).target = some c →
      (s.task q).target = some c ∨ q = p ∧ ∀ r, (s.task r).target ≠ some c := by
    intro q c hq
    by_cases hw : W q
    · exact htarget q c hw hq
    · rw [(hother q hw).1] at hq
      exact .inl hq
  refine ⟨fun q hq i => ?_, fun q => ?_, fun q q' c hq hq' => ?_⟩
  · by_cases hw : W q
    · exact hown q hw hq i
    · obtain ⟨h1, h2, h3⟩ := hother q hw
      rw [h2, h3]
      exact h.own q (h1 ▸ hq) i
  · by_cases hw : W q
    · exact hok q hw
    · obtain ⟨h1, h2, h3⟩ := hother q hw
      exact (h.tasks q).congr h1 h2 h3 (fun c hc => hother c (fun hwc => hw (hmaker q c hwc hc)))
  · rcases hold q c hq with hq | ⟨rfl, hno⟩ <;> rcases hold q' c hq' with hq' | ⟨rfl, hno'⟩
    · exact h.apart q q' c hq hq'
    · exact absurd hq (hno' q)
    · exact absurd hq' (hno q')
    · rfl

/-- A step of a process on the pages of the child it makes or kills. -/
theorem Paired.atChild (h : s.Paired) (hc : (s.task p).target = some c) (hp : s.task p ≠ .embryo)
    (hother : ∀ q, q ≠ p → q ≠ c →
      t.task q = s.task q ∧ t.fdAt q = s.fdAt q ∧ t.dataAt q = s.dataAt q)
    (hself : t.fdAt p = s.fdAt p ∧ t.dataAt p = s.dataAt p)
    (hok : t.TaskOk p) (hchild : t.task c ≠ .embryo → ∀ i, t.fdAt c i ≠ none → t.dataAt c i = true)
    (hokc : t.TaskOk c) (htarget : ∀ d, (t.task p).target = some d → d = c)
    (htargetc : (t.task c).target = none) : t.Paired := by
  refine h.changed (p := p) (W := fun q => q = p ∨ q = c)
    (fun q hq => hother q (hq ∘ .inl) (hq ∘ .inr)) ?_ ?_ ?_ ?_
  · rintro q (rfl | rfl) hq i
    · rw [hself.1, hself.2]
      exact h.own q hp i
    · exact hchild hq i
  · rintro q (rfl | rfl)
    · exact hok
    · exact hokc
  · rintro q d (rfl | rfl) hq
    · exact absurd (h.embryo_of_target hq) hp
    · exact .inl (h.apart q p d hq hc)
  · rintro q d (rfl | rfl) hq
    · exact .inl (htarget d hq ▸ hc)
    · rw [htargetc] at hq
      cases hq

/-- `u` is `s` but for the pages of `p`. -/
structure OnlyPages (s u : Share n) (p : Fin n) : Prop where
  task : u.task = s.task
  running : u.running = s.running
  envRuns : u.envRuns = s.envRuns
  others : ∀ q, q ≠ p → u.fdAt q = s.fdAt q ∧ u.dataAt q = s.dataAt q

section

variable (s)

theorem OnlyPages.refl (p : Fin n) : OnlyPages s s p := ⟨rfl, rfl, rfl, fun _ _ => ⟨rfl, rfl⟩⟩

theorem onlyPages_setFd (p : Fin n) (i : Slot) (v : Option PipeSide) :
    OnlyPages s (s.setFd p i v) p :=
  ⟨rfl, rfl, rfl, fun _ hq => ⟨update_of_ne hq _ _, rfl⟩⟩

theorem onlyPages_setData (p : Fin n) (i : Slot) (v : Bool) : OnlyPages s (s.setData p i v) p :=
  ⟨rfl, rfl, rfl, fun _ hq => ⟨rfl, update_of_ne hq _ _⟩⟩

theorem onlyPages_unmapPage (p : Fin n) (k : Nat) : OnlyPages s (s.unmapPage p k) p := by
  unfold unmapPage
  split
  · exact onlyPages_setFd ..
  · exact onlyPages_setData ..

theorem onlyPages_copyPage (p c : Fin n) (k : Nat) : OnlyPages s (s.copyPage p c k) c := by
  unfold copyPage
  split
  · exact onlyPages_setFd ..
  · exact onlyPages_setData ..

theorem fdAt_setFd (p : Fin n) (i j : Slot) (v : Option PipeSide) :
    (s.setFd p i v).fdAt p j = if j = i then v else s.fdAt p j := by
  unfold setFd
  simp only [update_self, update_apply]

theorem dataAt_setData (p : Fin n) (i j : Slot) (v : Bool) :
    (s.setData p i v).dataAt p j = if j = i then v else s.dataAt p j := by
  unfold setData
  simp only [update_self, update_apply]

theorem task_setTask_self (p : Fin n) (x : Task n) : (s.setTask p x).task p = x := update_self ..

theorem task_setTask_of_ne (x : Task n) (hq : q ≠ p) : (s.setTask p x).task q = s.task q :=
  update_of_ne hq _ _

end

variable {u : Share n} {x : Task n}

/-- A process changes its own pages and goes on with a task that concerns no
child. -/
theorem Paired.move (h : s.Paired) (hp : s.task p ≠ .embryo) (hu : OnlyPages s u p)
    (htarget : x.target = none) (hown : ∀ i, u.fdAt p i ≠ none → u.dataAt p i = true)
    (hok : (u.setTask p x).TaskOk p) : (u.setTask p x).Paired := by
  refine h.changed (p := p) (W := (· = p)) (fun q hq => ?_) ?_ ?_ ?_ ?_
  · rw [task_setTask_of_ne u x hq, hu.task]
    exact ⟨rfl, hu.others q hq⟩
  · rintro q rfl _
    exact hown
  · rintro q rfl
    exact hok
  · rintro q c rfl hq
    exact absurd (h.embryo_of_target hq) hp
  · rintro q c rfl hq
    rw [task_setTask_self, htarget] at hq
    cases hq

/-- Tasks about which there is nothing to know. -/
def plain : Task n → Bool
  | .embryo | .unborn | .closeData _ _ | .dupFd _ _ | .undoData _ | .copying _ _ _
  | .killing _ _ | .dying _ | .checking _ _ => false
  | _ => true

theorem taskOk_of_plain (h : plain (s.task p) = true) : s.TaskOk p := by
  unfold TaskOk
  unfold plain at h
  split <;> simp_all

theorem Paired.plainMove (h : s.Paired) (hp : s.task p ≠ .embryo) (hu : OnlyPages s u p)
    (hx : plain x = true) (hown : ∀ i, u.fdAt p i ≠ none → u.dataAt p i = true) :
    (u.setTask p x).Paired := by
  refine h.move hp hu ?_ hown (taskOk_of_plain ?_)
  · cases x <;> first | rfl | cases hx
  · rw [task_setTask_self]
    exact hx

theorem own_unmapFd (h : ∀ i, s.fdAt p i ≠ none → s.dataAt p i = true) (i j : Slot)
    (hj : (s.setFd p i none).fdAt p j ≠ none) : (s.setFd p i none).dataAt p j = true := by
  rw [fdAt_setFd] at hj
  split at hj
  · exact absurd rfl hj
  · exact h j hj

theorem own_unmapData (h : ∀ i, s.fdAt p i ≠ none → s.dataAt p i = true) {i : Slot}
    (hi : s.fdAt p i = none) (j : Slot) (hj : s.fdAt p j ≠ none) :
    (s.setData p i false).dataAt p j = true := by
  rw [dataAt_setData]
  split
  · next heq =>
    rw [heq] at hj
    exact absurd hi hj
  · exact h j hj

variable {k : Nat}

theorem cleared_unmapPage (hk : k < PAGES) (h : s.Cleared p k) :
    (s.unmapPage p k).Cleared p (k + 1) := by
  intro i
  unfold unmapPage
  by_cases hlow : k < 32
  · rw [if_pos hlow]
    refine ⟨fun hik => ?_, fun hik => absurd hik (by omega)⟩
    rw [fdAt_setFd]
    split
    · rfl
    · next hne =>
      have hne : i.val ≠ k := by
        intro heq
        refine hne (Fin.ext ?_)
        rw [heq]
        exact (Nat.mod_eq_of_lt hlow).symm
      exact (h i).1 (by omega)
  · rw [if_neg hlow]
    refine ⟨fun _ => (h i).1 (by omega), fun hik => ?_⟩
    rw [dataAt_setData]
    split
    · rfl
    · next hne =>
      have hne : i.val + 32 ≠ k := by
        intro heq
        refine hne (Fin.ext ?_)
        change i.val = k % 32
        have : k < 64 := hk
        omega
      exact (h i).2 (by omega)

theorem Paired.dyingStep (h : s.Paired) (hp : s.task p ≠ .embryo) (hcleared : s.Cleared p k)
    (hk : k < PAGES) : ((s.unmapPage p k).setTask p (.dying (k + 1))).Paired := by
  refine h.move hp (onlyPages_unmapPage s p k) rfl (fun i hi => ?_) ?_
  · unfold unmapPage at hi ⊢
    split
    · next hlow =>
      rw [if_pos hlow] at hi
      exact own_unmapFd (h.own p hp) _ i hi
    · next hlow =>
      rw [if_neg hlow] at hi
      refine own_unmapData (h.own p hp) ((hcleared _).1 ?_) i hi
      exact Nat.lt_of_lt_of_le (Fin.isLt _) (Nat.not_lt.mp hlow)
  · unfold TaskOk
    simp only [task_setTask_self]
    exact cleared_unmapPage hk hcleared

theorem Cleared.all (h : s.Cleared p k) (hk : PAGES ≤ k) : s.Cleared p PAGES :=
  fun i => ⟨fun hi => (h i).1 (by omega), fun hi => (h i).2 (by omega)⟩

theorem cleared_zero (s : Share n) (p : Fin n) : s.Cleared p 0 :=
  fun _ => ⟨fun hi => absurd hi (Nat.not_lt_zero _), fun hi => absurd hi (Nat.not_lt_zero _)⟩

theorem taskOk_embryo (h : s.task p = .embryo) : s.TaskOk p := by
  unfold TaskOk
  simp only [h]

section

variable (h : s.Paired) (hc : (s.task p).target = some c) (hp : s.task p ≠ .embryo)
include h hc hp

/-- The parent changes pages of the child and goes on with it. -/
theorem Paired.onChild (hu : OnlyPages s u c) (hx : x.target = some c)
    (hok : (u.setTask p x).TaskOk p) : (u.setTask p x).Paired := by
  have hembryo := h.embryo_of_target hc
  have hcp : c ≠ p := by
    rintro rfl
    exact hp hembryo
  have hembryo' : (u.setTask p x).task c = .embryo := by
    rw [task_setTask_of_ne u x hcp, hu.task]
    exact hembryo
  refine h.atChild hc hp (fun q hq hqc => ?_) (hu.others p hcp.symm) hok
    (fun hne => absurd hembryo' hne) (taskOk_embryo hembryo') (fun d hd => ?_) ?_
  · rw [task_setTask_of_ne u x hq, hu.task]
    exact ⟨rfl, hu.others q hqc⟩
  · rw [task_setTask_self, hx] at hd
    exact (Option.some.inj hd).symm
  · rw [hembryo']
    rfl

/-- The parent lets go of the child, which becomes `y`. -/
theorem Paired.release {y : Task n} (hy : y.target = none)
    (hown : y ≠ .embryo → ∀ i, s.fdAt c i ≠ none → s.dataAt c i = true)
    (hok : ((s.setTask c y).setTask p .idle).TaskOk c) :
    ((s.setTask c y).setTask p .idle).Paired := by
  have hcp : c ≠ p := by
    rintro rfl
    exact hp (h.embryo_of_target hc)
  have htask : ((s.setTask c y).setTask p .idle).task c = y := by
    rw [task_setTask_of_ne _ _ hcp, task_setTask_self]
  refine h.atChild hc hp (fun q hq hqc => ?_) ⟨rfl, rfl⟩ (taskOk_of_plain ?_) ?_ hok
    (fun d hd => ?_) ?_
  · rw [task_setTask_of_ne _ _ hq, task_setTask_of_ne _ _ hqc]
    exact ⟨rfl, rfl, rfl⟩
  · rw [task_setTask_self]
    rfl
  · rw [htask]
    exact hown
  · rw [task_setTask_self] at hd
    cases hd
  · rw [htask]
    exact hy

end

theorem slot_eq (hi : i.val = k % 32) : i = Fin.ofNat 32 k := Fin.ext hi

theorem ne_embryo_of_plain (hp : plain (s.task p) = true) : s.task p ≠ .embryo := by
  intro heq
  rw [heq] at hp
  cases hp

theorem plain_of_free (h : x.free = true) : plain x = true := by
  cases x <;> first | rfl | cases h

section

variable (h : s.Paired)
include h

theorem Paired.copyStep {fork : Bool} (hp : s.task p = .copying fork c k) (ok : Bool) :
    (s.copyStep p fork c k ok).Paired := by
  have hne : s.task p ≠ .embryo := by simp [hp]
  have htarget : (s.task p).target = some c := by rw [hp]; rfl
  have hok := h.tasks p
  unfold TaskOk at hok
  simp only [hp] at hok
  obtain ⟨hembryo, hcopied⟩ := hok
  have hcp : c ≠ p := by
    rintro rfl
    exact hne hembryo
  unfold Share.copyStep
  split
  · next hk =>
    -- All pages are there: the child has the pipes of its descriptors.
    refine h.release htarget hne rfl (fun _ i hi => ?_) (taskOk_of_plain ?_)
    · have hk : 64 ≤ k := hk
      have hlt : i.val + 32 < k := by omega
      exact (hcopied i).2 hlt (h.own p hne i ((hcopied i).1 hi))
    · rw [task_setTask_of_ne _ _ hcp, task_setTask_self]
      rfl
  · split
    · next hno =>
      refine h.onChild htarget hne (.refl s c) rfl ?_
      unfold TaskOk
      simp only [task_setTask_self]
      refine ⟨(task_setTask_of_ne s _ hcp).trans hembryo, fun i => ⟨(hcopied i).1, ?_⟩⟩
      intro hi hdata
      by_cases hlt : i.val + 32 < k
      · exact (hcopied i).2 hlt hdata
      · have hk : k = i.val + 32 := by omega
        have hslot : i = Fin.ofNat 32 k := slot_eq (by omega)
        unfold hasPage at hno
        rw [if_neg (by omega), ← hslot] at hno
        exact absurd (hdata.symm.trans hno) (by decide)
    · split
      · refine h.onChild htarget hne (onlyPages_copyPage s p c k) rfl ?_
        unfold TaskOk
        simp only [task_setTask_self]
        refine ⟨?_, fun i => ?_⟩
        · rw [task_setTask_of_ne _ _ hcp, (onlyPages_copyPage s p c k).task]
          exact hembryo
        · obtain ⟨hfd, hdata⟩ := (onlyPages_copyPage s p c k).others p hcp.symm
          change ((s.copyPage p c k).fdAt c i ≠ none → (s.copyPage p c k).fdAt p i ≠ none) ∧
            (i.val + 32 < k + 1 → (s.copyPage p c k).dataAt p i = true →
              (s.copyPage p c k).dataAt c i = true)
          rw [hfd, hdata]
          unfold copyPage
          by_cases hlow : k < 32
          · rw [if_pos hlow]
            refine ⟨fun hi => ?_, fun hi => absurd hi (by omega)⟩
            rw [fdAt_setFd] at hi
            split at hi
            · next heq =>
              rw [heq]
              exact hi
            · exact (hcopied i).1 hi
          · rw [if_neg hlow]
            refine ⟨(hcopied i).1, fun hi hd => ?_⟩
            rw [dataAt_setData]
            split
            · rfl
            · next hslot =>
              have hik : i.val + 32 ≠ k := by
                intro heq
                exact hslot (slot_eq (by omega))
              exact (hcopied i).2 (by omega) hd
      · split
        · exact h.plainMove hne (.refl s p) rfl (h.own p hne)
        · refine h.onChild htarget hne (.refl s c) rfl ?_
          unfold TaskOk
          simp only [task_setTask_self]
          exact ⟨(task_setTask_of_ne s _ hcp).trans hembryo, cleared_zero s c⟩

theorem Paired.killStep (hp : s.task p = .killing c k) (hk : k < PAGES) :
    ((s.unmapPage c k).setTask p (.killing c (k + 1))).Paired := by
  have hne : s.task p ≠ .embryo := by simp [hp]
  have hok := h.tasks p
  unfold TaskOk at hok
  simp only [hp] at hok
  obtain ⟨hembryo, hcleared⟩ := hok
  have hcp : c ≠ p := by
    rintro rfl
    exact hne hembryo
  refine h.onChild (by rw [hp]; rfl) hne (onlyPages_unmapPage s c k) rfl ?_
  unfold TaskOk
  simp only [task_setTask_self]
  refine ⟨?_, cleared_unmapPage hk hcleared⟩
  rw [task_setTask_of_ne _ _ hcp, (onlyPages_unmapPage s c k).task]
  exact hembryo

/-- After `close` the process goes on with a plain task or begins to die. -/
theorem Paired.afterClose (hp : s.task p ≠ .embryo) (hu : OnlyPages s u p)
    (hown : ∀ i, u.fdAt p i ≠ none → u.dataAt p i = true) (next : AfterClose) (i : Slot) :
    (u.setTask p (next.task i)).Paired := by
  cases next with
  | done | dup => exact h.plainMove hp hu rfl hown
  | exit =>
    unfold AfterClose.task
    dsimp only
    split
    · exact h.plainMove hp hu rfl hown
    · refine h.move hp hu rfl hown ?_
      unfold TaskOk
      simp only [task_setTask_self]
      exact cleared_zero _ p

theorem Paired.taskStep {ok : Bool} (hstep : s.taskStep p ok = some t) : t.Paired := by
  have hne : s.task p ≠ .embryo := by
    intro hp
    simp [Share.taskStep, hp] at hstep
  have hown := h.own p hne
  have hok := h.tasks p
  unfold TaskOk at hok
  cases hp : s.task p <;> simp only [Share.taskStep, hp] at hstep hok
  case unborn | embryo | idle | checked => cases hstep
  case close i next =>
    split at hstep <;> cases hstep
    · exact h.plainMove hne (.refl s p) rfl hown
    · exact h.afterClose hne (.refl s p) hown next i
  case closeFd i next | undoFd i =>
    cases hstep
    refine h.move hne (onlyPages_setFd ..) rfl (own_unmapFd hown i) ?_
    unfold TaskOk
    simp only [task_setTask_self]
    exact (fdAt_setFd s p i i none).trans (if_pos rfl)
  case closeData i next | undoData i =>
    cases hstep
    exact h.plainMove hne (onlyPages_setData ..) rfl (own_unmapData hown hok)
  case closeFdAgain i next =>
    cases hstep
    exact h.afterClose hne (onlyPages_setFd ..) (own_unmapFd hown i) next i
  case dupData old new =>
    split at hstep
    · next hno =>
      cases hstep
      refine h.move hne (.refl s p) rfl hown ?_
      unfold TaskOk
      simp only [task_setTask_self]
      intro hold
      exact absurd ((hown old hold).symm.trans hno) (by decide)
    · split at hstep <;> cases hstep
      · refine h.move hne (onlyPages_setData ..) rfl (fun i hi => ?_) ?_
        · rw [dataAt_setData]
          split
          · rfl
          · exact hown i hi
        · unfold TaskOk
          simp only [task_setTask_self]
          exact fun _ => (dataAt_setData s p new new true).trans (if_pos rfl)
      · exact h.plainMove hne (.refl s p) rfl hown
  case dupFd old new =>
    split at hstep <;> cases hstep
    · refine h.plainMove hne (onlyPages_setFd ..) rfl (fun i hi => ?_)
      rw [fdAt_setFd] at hi
      split at hi
      · next heq =>
        rw [heq]
        exact hok hi
      · exact hown i hi
    · exact h.plainMove hne (.refl s p) rfl hown
  case copying fork c k =>
    cases hstep
    exact h.copyStep hp ok
  case killing c k =>
    split at hstep <;> cases hstep
    · next hk =>
      have hall := hok.2.all hk
      refine h.release (by rw [hp]; rfl) hne rfl (fun _ i hi => ?_) ?_
      · exact absurd ((hall i).1 (Nat.lt_trans i.isLt (by decide))) hi
      · have hcp : c ≠ p := by
          rintro rfl
          exact hne hok.1
        unfold TaskOk
        rw [task_setTask_of_ne _ _ hcp, task_setTask_self]
        exact hall
    · next hk =>
      exact h.killStep hp (Nat.not_le.mp hk)
  case dying k =>
    split at hstep <;> cases hstep
    · next hk =>
      have hmove : (s.setTask p .unborn).Paired := by
        refine h.move hne (.refl s p) rfl hown ?_
        unfold TaskOk
        simp only [task_setTask_self]
        exact hok.all hk
      exact ⟨hmove.own, hmove.tasks, hmove.apart⟩
    · next hk =>
      exact h.dyingStep hne hok (Nat.not_le.mp hk)
  case checking i c =>
    split at hstep <;> cases hstep
    · refine h.move hne (.refl s p) rfl hown ?_
      unfold TaskOk
      simp only [task_setTask_self]
      exact hok
    · exact h.plainMove hne (.refl s p) rfl hown

theorem Paired.exofork {fork : Bool} (hp : plain (s.task p) = true)
    (hstep : s.exofork p c fork = some t) : t.Paired := by
  unfold Share.exofork at hstep
  split at hstep <;> cases hstep
  next hunborn =>
  have hcleared := h.tasks c
  unfold TaskOk at hcleared
  simp only [hunborn] at hcleared
  have hpc : p ≠ c := by
    rintro rfl
    rw [hunborn] at hp
    cases hp
  have hne := ne_embryo_of_plain hp
  -- Nobody makes or kills the child yet, since it is not an embryo.
  have hnot : ∀ q, (s.task q).target ≠ some c := by
    intro q hq
    exact absurd (hunborn.symm.trans (h.embryo_of_target hq)) (by simp)
  have hchild : update (update s.task c .embryo) p (.copying fork c 0) c = .embryo := by
    rw [update_of_ne hpc.symm, update_self]
  refine h.changed (p := p) (W := fun q => q = p ∨ q = c) (fun q hq => ⟨?_, rfl, rfl⟩) ?_ ?_ ?_ ?_
  · rw [task_setTask_of_ne _ _ (hq ∘ .inl), task_setTask_of_ne _ _ (hq ∘ .inr)]
  · rintro q (rfl | rfl) hq i hi
    · exact h.own q hne i hi
    · exact absurd hchild hq
  · rintro q (rfl | rfl)
    · unfold TaskOk
      simp only [task_setTask_self]
      refine ⟨hchild, fun i => ⟨fun hi => ?_, fun hi => absurd hi (Nat.not_lt_zero _)⟩⟩
      exact absurd ((hcleared i).1 (Nat.lt_trans i.isLt (by decide))) hi
    · exact taskOk_embryo hchild
  · rintro q d (rfl | rfl) hq
    · exact absurd (h.embryo_of_target hq) hne
    · exact absurd hq (hnot q)
  · rintro q d (rfl | rfl) hq
    · rw [task_setTask_self] at hq
      cases hq
      exact .inr ⟨rfl, hnot⟩
    · exact absurd (congrArg Task.target hchild ▸ hq) (by simp [Task.target])

theorem Paired.callStep {call : ShareCall n} (hfree : (s.task p).free = true)
    (hstep : s.callStep p call = some t) : t.Paired := by
  have hplain := plain_of_free hfree
  have hne := ne_embryo_of_plain hplain
  have hown := h.own p hne
  cases call with
  | check =>
    simp only [Share.callStep] at hstep
    split at hstep <;> cases hstep
    · next hsome =>
      refine h.move hne (.refl s p) rfl hown ?_
      unfold TaskOk
      simp only [task_setTask_self]
      exact Option.isSome_iff_ne_none.mp hsome
    · exact h.plainMove hne (.refl s p) rfl hown
  | close | exit =>
    cases hstep
    exact h.plainMove hne (.refl s p) rfl hown
  | dup =>
    simp only [Share.callStep] at hstep
    split at hstep <;> cases hstep <;> exact h.plainMove hne (.refl s p) rfl hown
  | fork | spawn => exact h.exofork hplain hstep

theorem Paired.step {ev : ShareEvent n} (hstep : s.step ncpu ev = some t) : t.Paired := by
  cases ev with
  | call =>
    simp only [Share.step] at hstep
    split at hstep
    · next hrun => exact h.callStep hrun.2 hstep
    · cases hstep
  | step =>
    simp only [Share.step] at hstep
    split at hstep
    · exact h.taskStep hstep
    · cases hstep
  | run =>
    simp only [Share.step] at hstep
    split at hstep <;> cases hstep
    exact ⟨h.own, h.tasks, h.apart⟩
  | stop =>
    cases hstep
    exact ⟨h.own, h.tasks, h.apart⟩

end

theorem Start.pairedStart (h : s.Start) : s.Paired := by
  refine ⟨fun p _ i => h.paired p i, fun p => ?_, fun p q c hp => ?_⟩
  · rcases h.task p with hidle | ⟨hunborn, hnone⟩
    · exact taskOk_of_plain (by rw [hidle]; rfl)
    · unfold TaskOk
      simp only [hunborn]
      exact fun i => ⟨fun _ => (hnone i).1, fun _ => (hnone i).2⟩
  · rcases h.task p with hidle | ⟨hunborn, _⟩
    · rw [hidle] at hp
      cases hp
    · rw [hunborn] at hp
      cases hp

end Share

end MosSmp.User
