import MosSmp.User.PipeShare

/-!
What `_pipe_is_closed` has seen when it returns 1. It compares two counts that it
reads one after the other and reads them again if `env_runs` has changed. While
`fork` or `spawn` has copied the `Fd` and not yet the pipe, the pipe is counted
once too few; and on a second CPU a mapping of the `Fd` can go away between the
two reads without a change of `env_runs`. In both cases the pipe appears closed
with its other end open. If neither happens, a result of 1 means that the other
end was closed at the moment of the second read.
-/

namespace MosSmp.User

open Lib Function

namespace Share

variable {n ncpu : Nat} {s t : Share n} {p q c : Fin n} {i j : Slot} {e : PipeSide}

theorem countP_add_le {α : Type} {f g k : α → Bool} (hf : ∀ x, f x = true → k x = true)
    (hg : ∀ x, g x = true → k x = true) (hfg : ∀ x, f x = true → g x = false) (l : List α) :
    l.countP f + l.countP g ≤ l.countP k := by
  induction l with
  | nil => exact Nat.le_refl 0
  | cons x =>
    rw [List.countP_cons, List.countP_cons, List.countP_cons]
    cases hfx : f x with
    | true =>
      rw [hfg x hfx, hf x hfx]
      simp only [if_true, Bool.false_eq_true, if_false]
      omega
    | false =>
      cases hgx : g x with
      | true =>
        rw [hg x hgx]
        simp only [if_true, Bool.false_eq_true, if_false]
        omega
      | false =>
        simp only [Bool.false_eq_true, if_false]
        omega

/-- If every mapped `Fd` has its pipe, the pipe is mapped at least as often as the
two `Fd` pages together. -/
theorem fdCount_add_le (h : ∀ q i, s.fdAt q i ≠ none → s.dataAt q i = true) (e : PipeSide) :
    s.fdCount e + s.fdCount e.other ≤ s.dataCount := by
  have hmapped : ∀ (e : PipeSide) (x : Fin n × Slot),
      decide (s.fdAt x.1 x.2 = some e) = true → s.dataAt x.1 x.2 = true := by
    intro e x hx
    refine h x.1 x.2 ?_
    rw [of_decide_eq_true hx]
    simp
  refine countP_add_le (hmapped e) (hmapped e.other) (fun x hx => ?_) (places n)
  rw [of_decide_eq_true hx]
  cases e <;> rfl

/-- The end that process `p` checks. -/
def checkSide (s : Share n) (p : Fin n) : Option PipeSide :=
  match s.task p with
  | .checking i _ => s.fdAt p i
  | _ => none

/-- No process maps the `Fd` page of the end opposite to the one that `p`
checks. -/
def otherClosed (s : Share n) (p : Fin n) : Bool :=
  (s.checkSide p).any (fun e => decide (s.fdCount e.other = 0))

/-- The record for each process: whether the opposite end was closed at a moment
of its last `_pipe_is_closed`. -/
def note (s : Share n) : ShareEvent n → (Fin n → Bool) → Fin n → Bool
  | .call p (.check _), seen => fun q => if q = p then false else seen q || s.otherClosed q
  | _, seen => fun q => seen q || s.otherClosed q

/-- The end of a process that has read the count of its `Fd` and not yet that of
the pipe. -/
def betweenReads (s : Share n) (p : Fin n) : Option PipeSide :=
  match s.task p with
  | .checking i (.loadPipeRef _ _) => s.fdAt p i
  | _ => none

/-- The value of `env_runs` that `_pipe_is_closed` has read. -/
def checkRuns (s : Share n) (p : Fin n) : Option Word :=
  match s.task p with
  | .checking _ (.loadFdRef runs) | .checking _ (.loadPipeRef runs _)
  | .checking _ (.again runs _ _) => some runs
  | _ => none

/-- When the count of the pipe is read, no child that is being made has an `Fd`
without its pipe. Between the two reads of a process that runs, nobody lowers
the count of its `Fd`. `env_runs` does not come round to the value that was
read. -/
def Orderly (s : Share n) : ShareEvent n → Prop
  | .step p ok =>
    ((s.betweenReads p).isSome = true → ∀ q i, s.task q = .embryo → s.fdAt q i ≠ none →
      s.dataAt q i = true) ∧
    ∀ t ∈ s.taskStep p ok, ∀ q, q ≠ p → s.running q = true →
      ∀ e ∈ s.betweenReads q, s.fdCount e ≤ t.fdCount e
  | .run p => s.checkRuns p ≠ some (s.envRuns p + 1)
  | .call _ _ | .stop _ => True

instance decidableOrderly (s : Share n) : (ev : ShareEvent n) → Decidable (s.Orderly ev)
  | .step p ok => inferInstanceAs (Decidable (_ ∧ ∀ t ∈ s.taskStep p ok, _))
  | .run _ => inferInstanceAs (Decidable (_ ≠ _))
  | .call _ _ | .stop _ => inferInstanceAs (Decidable True)

/-- The process is not in `_pipe_is_closed` and has no result of it. -/
def silent : Task n → Bool
  | .checking _ _ | .checked _ _ => false
  | _ => true

/-- What a step of `p` leaves to the others: a process that is not a child in the
making keeps its task and its descriptors. -/
structure Frame (s t : Share n) (p : Fin n) : Prop where
  same : ∀ q, q ≠ p → s.task q ≠ .embryo → t.task q = s.task q ∧ t.fdAt q = s.fdAt q
  embryo : ∀ q, q ≠ p → s.task q = .embryo → silent (t.task q) = true
  running : ∀ q, q ≠ p → t.running q = s.running q
  envRuns : ∀ q, t.envRuns q = s.envRuns q

theorem OnlyPages.frame {u : Share n} (hu : OnlyPages s u p) (x : Task n) :
    Frame s (u.setTask p x) p := by
  have htask : ∀ q, q ≠ p → (u.setTask p x).task q = s.task q := by
    intro q hq
    rw [task_setTask_of_ne u x hq, hu.task]
  refine ⟨fun q hq _ => ⟨htask q hq, (hu.others q hq).1⟩, fun q hq he => ?_, fun q _ => ?_,
    fun q => ?_⟩
  · rw [htask q hq, he]
    rfl
  · exact congrFun hu.running q
  · exact congrFun hu.envRuns q

theorem OnlyPages.frameChild {u : Share n} (hu : OnlyPages s u c) (hc : s.task c = .embryo)
    (x : Task n) : Frame s (u.setTask p x) p := by
  have htask : ∀ q, q ≠ p → (u.setTask p x).task q = s.task q := by
    intro q hq
    rw [task_setTask_of_ne u x hq, hu.task]
  refine ⟨fun q hq hne => ⟨htask q hq, ?_⟩, fun q hq he => ?_, fun q _ => ?_, fun q => ?_⟩
  · refine (hu.others q ?_).1
    rintro rfl
    exact hne hc
  · rw [htask q hq, he]
    rfl
  · exact congrFun hu.running q
  · exact congrFun hu.envRuns q

theorem frame_release {y : Task n} (hc : s.task c = .embryo) (hy : silent y = true) (x : Task n) :
    Frame s ((s.setTask c y).setTask p x) p := by
  refine ⟨fun q hq hne => ⟨?_, rfl⟩, fun q hq he => ?_, fun _ _ => rfl, fun _ => rfl⟩
  · have hqc : q ≠ c := by
      rintro rfl
      exact hne hc
    rw [task_setTask_of_ne _ _ hq, task_setTask_of_ne _ _ hqc]
  · rw [task_setTask_of_ne _ _ hq]
    by_cases hqc : q = c
    · rw [hqc, task_setTask_self]
      exact hy
    · rw [task_setTask_of_ne _ _ hqc, he]
      rfl

theorem silent_afterClose (next : AfterClose) (i : Slot) :
    silent (next.task i : Task n) = true := by
  cases next with
  | done | dup => rfl
  | exit =>
    unfold AfterClose.task
    dsimp only
    split <;> rfl

theorem silent_setTask (u : Share n) {x : Task n} (hx : silent x = true) :
    silent ((u.setTask p x).task p) = true := by
  rw [task_setTask_self]
  exact hx

theorem frame_copyStep {fork : Bool} {k : Nat} (h : s.Paired) (hp : s.task p = .copying fork c k)
    (ok : Bool) :
    Frame s (s.copyStep p fork c k ok) p ∧ silent ((s.copyStep p fork c k ok).task p) = true := by
  have hc : s.task c = .embryo := h.embryo_of_target (by rw [hp]; rfl)
  have hself : ∀ x, silent x = true → Frame s (s.setTask p x) p ∧
      silent ((s.setTask p x).task p) = true :=
    fun x hx => ⟨(OnlyPages.refl s p).frame x, silent_setTask s hx⟩
  unfold copyStep
  split
  · exact ⟨frame_release hc rfl _, silent_setTask _ rfl⟩
  split
  · exact hself _ rfl
  split
  · exact ⟨(onlyPages_copyPage s p c k).frameChild hc _, silent_setTask _ rfl⟩
  split <;> exact hself _ rfl

variable {ok : Bool}

/-- A step outside `_pipe_is_closed`. -/
theorem frame_taskStep (h : s.Paired) (hsilent : silent (s.task p) = true)
    (hstep : s.taskStep p ok = some t) : Frame s t p ∧ silent (t.task p) = true := by
  have hself : ∀ (u : Share n) (x : Task n), OnlyPages s u p → silent x = true →
      Frame s (u.setTask p x) p ∧ silent ((u.setTask p x).task p) = true :=
    fun u x hu hx => ⟨hu.frame x, silent_setTask u hx⟩
  cases hp : s.task p <;> simp only [taskStep, hp] at hstep
  case unborn | embryo | idle => cases hstep
  case checking | checked =>
    rw [hp] at hsilent
    cases hsilent
  case close i next =>
    split at hstep <;> cases hstep
    · exact hself _ _ (.refl s p) rfl
    · exact hself _ _ (.refl s p) (silent_afterClose next i)
  case closeFd | undoFd =>
    cases hstep
    exact hself _ _ (onlyPages_setFd ..) rfl
  case closeData | undoData =>
    cases hstep
    exact hself _ _ (onlyPages_setData ..) rfl
  case closeFdAgain i next =>
    cases hstep
    exact hself _ _ (onlyPages_setFd ..) (silent_afterClose next i)
  case dupData old new =>
    split at hstep
    · cases hstep
      exact hself _ _ (.refl s p) rfl
    · split at hstep <;> cases hstep
      · exact hself _ _ (onlyPages_setData ..) rfl
      · exact hself _ _ (.refl s p) rfl
  case dupFd old new =>
    split at hstep <;> cases hstep
    · exact hself _ _ (onlyPages_setFd ..) rfl
    · exact hself _ _ (.refl s p) rfl
  case copying fork c k =>
    cases hstep
    exact frame_copyStep h hp ok
  case killing c k =>
    have hc : s.task c = .embryo := h.embryo_of_target (by rw [hp]; rfl)
    split at hstep <;> cases hstep
    · exact ⟨frame_release hc rfl _, silent_setTask _ rfl⟩
    · exact ⟨(onlyPages_unmapPage s c k).frameChild hc _, silent_setTask _ rfl⟩
  case dying k =>
    split at hstep <;> cases hstep
    · have hframe := (OnlyPages.refl s p).frame (Task.unborn : Task n)
      exact ⟨⟨hframe.same, hframe.embryo, fun q hq => update_of_ne hq _ _, hframe.envRuns⟩,
        silent_setTask s rfl⟩
    · exact hself _ _ (onlyPages_unmapPage s p k) rfl

/-- The process has run since it read `env_runs` as `runs`, and still runs. -/
def Fresh (s : Share n) (p : Fin n) (runs : Word) : Prop :=
  s.running p = true ∧ s.envRuns p = runs

/-- What `_pipe_is_closed` has read, as long as `env_runs` will not make it read
again: not more mappings of its `Fd` than there are, and equal counts only if the
other end was closed. -/
def CheckOk (s : Share n) (seen : Fin n → Bool) (p : Fin n) : Prop :=
  match s.task p with
  | .checking i (.loadPipeRef runs fdRef) =>
    s.Fresh p runs → ∀ e, s.fdAt p i = some e → fdRef ≤ s.fdCount e
  | .checking _ (.again runs fdRef pipeRef) => s.Fresh p runs → fdRef = pipeRef → seen p = true
  | .checked _ true => seen p = true
  | _ => True

variable {seen seen' : Fin n → Bool}

theorem checkOk_of_silent (h : silent (s.task p) = true) : s.CheckOk seen p := by
  unfold CheckOk
  unfold silent at h
  split <;> simp_all

/-- A process that does not move keeps what it knows, if the count of its `Fd` is
not lowered while it runs. -/
theorem CheckOk.congr (h : s.CheckOk seen p) (htask : t.task p = s.task p)
    (hfd : t.fdAt p = s.fdAt p) (hrunning : t.running p = true → s.running p = true)
    (hruns : t.running p = true → t.envRuns p = s.envRuns p)
    (hseen : seen p = true → seen' p = true)
    (hcount : t.running p = true → ∀ e, s.betweenReads p = some e → s.fdCount e ≤ t.fdCount e) :
    t.CheckOk seen' p := by
  have hfresh : ∀ runs, t.Fresh p runs → s.Fresh p runs := by
    intro runs hf
    exact ⟨hrunning hf.1, (hruns hf.1).symm.trans hf.2⟩
  unfold CheckOk at h ⊢
  unfold betweenReads at hcount
  rw [htask]
  cases hp : s.task p with
  | checking i c =>
    cases c with
    | loadPipeRef runs =>
      simp only [hp] at h hcount ⊢
      intro hf e he
      rw [hfd] at he
      exact Nat.le_trans (h (hfresh runs hf) e he) (hcount hf.1 e he)
    | again runs =>
      simp only [hp] at h ⊢
      exact fun hf heq => hseen (h (hfresh runs hf) heq)
    | loadRuns | loadFdRef => trivial
  | checked i isClosed =>
    cases isClosed with
    | true =>
      simp only [hp] at h ⊢
      exact hseen h
    | false => trivial
  | _ => trivial

theorem otherClosed_of_counts {f : Nat} (h : ∀ q i, s.fdAt q i ≠ none → s.dataAt q i = true)
    {k : Check} (hp : s.task p = .checking i k) (he : s.fdAt p i = some e)
    (hle : f ≤ s.fdCount e) (heq : f = s.dataPageref p i) : s.otherClosed p = true := by
  have hdata : s.dataAt p i = true := h p i (by rw [he]; simp)
  have hcount := fdCount_add_le h e
  unfold dataPageref Pipe.pageref at heq
  rw [hdata, if_pos rfl] at heq
  unfold otherClosed checkSide
  simp only [hp, he, Option.any_some, decide_eq_true_eq]
  omega

/-- A step of `_pipe_is_closed` itself. -/
theorem checkOk_checkStep {k : Check} (h : s.Paired) (hok : s.CheckOk seen p)
    (hrun : s.running p = true) (horderly : s.Orderly (.step p ok)) (hp : s.task p = .checking i k)
    (hstep : s.taskStep p ok = some t) :
    Frame s t p ∧ t.CheckOk (fun q => seen q || s.otherClosed q) p := by
  have hmapped := h.tasks p
  unfold TaskOk at hmapped
  unfold CheckOk at hok
  simp only [hp] at hmapped hok
  simp only [taskStep, hp] at hstep
  have hmove : ∀ x, Frame s (s.setTask p x) p := fun x => (OnlyPages.refl s p).frame x
  cases k with
  | loadRuns =>
    cases hstep
    refine ⟨hmove _, ?_⟩
    unfold CheckOk
    simp only [task_setTask_self]
  | loadFdRef =>
    cases hstep
    refine ⟨hmove _, ?_⟩
    unfold CheckOk
    simp only [task_setTask_self]
    intro _ e he
    have he : s.fdAt p i = some e := he
    unfold fdPageref
    rw [he]
    exact Nat.le_refl _
  | loadPipeRef =>
    cases hstep
    refine ⟨hmove _, ?_⟩
    unfold CheckOk
    simp only [task_setTask_self]
    intro hfresh heq
    obtain ⟨e, he⟩ := Option.ne_none_iff_exists'.mp hmapped
    have hbetween : s.betweenReads p = some e := by
      unfold betweenReads
      simp only [hp]
      exact he
    have hall : ∀ q j, s.fdAt q j ≠ none → s.dataAt q j = true := by
      intro q j hj
      by_cases hq : s.task q = .embryo
      · exact horderly.1 (by rw [hbetween]; rfl) q j hq hj
      · exact h.own q hq j hj
    have hclosed := otherClosed_of_counts hall hp he (hok hfresh e he) heq
    rw [hclosed, Bool.or_true]
  | again runs fdRef pipeRef =>
    by_cases hruns : runs = s.envRuns p
    · simp only [Check.step, hruns, ne_eq, not_true_eq_false, if_false] at hstep
      cases hstep
      refine ⟨hmove _, ?_⟩
      unfold CheckOk
      simp only [task_setTask_self]
      by_cases heq : fdRef = pipeRef
      · rw [decide_eq_true heq]
        dsimp only
        rw [hok ⟨hrun, hruns.symm⟩ heq, Bool.true_or]
      · rw [decide_eq_false heq]
        trivial
    · simp only [Check.step, ne_eq, hruns, not_false_eq_true, if_true] at hstep
      cases hstep
      refine ⟨hmove _, ?_⟩
      unfold CheckOk
      simp only [task_setTask_self]

/-- The others after a step of `p`. -/
theorem CheckOk.of_frame (hok : s.CheckOk seen q) (hq : q ≠ p) (hframe : Frame s t p)
    (horderly : s.Orderly (.step p ok)) (hstep : s.taskStep p ok = some t) :
    t.CheckOk (fun q => seen q || s.otherClosed q) q := by
  by_cases hembryo : s.task q = .embryo
  · exact checkOk_of_silent (hframe.embryo q hq hembryo)
  · obtain ⟨htask, hfd⟩ := hframe.same q hq hembryo
    refine hok.congr htask hfd ?_ (fun _ => hframe.envRuns q) ?_ ?_
    · intro hrun
      rw [← hframe.running q hq]
      exact hrun
    · intro hs
      rw [hs, Bool.true_or]
    · intro hrun e he
      rw [hframe.running q hq] at hrun
      exact horderly.2 t hstep q hq hrun e he

theorem checkOk_step (h : s.Paired) (hok : ∀ q, s.CheckOk seen q) (hrun : s.running p = true)
    (horderly : s.Orderly (.step p ok)) (hstep : s.taskStep p ok = some t) (q : Fin n) :
    t.CheckOk (fun q => seen q || s.otherClosed q) q := by
  cases hp : s.task p with
  | checking =>
    obtain ⟨hframe, hself⟩ := checkOk_checkStep h (hok p) hrun horderly hp hstep
    by_cases hq : q = p
    · rw [hq]
      exact hself
    · exact (hok q).of_frame hq hframe horderly hstep
  | checked =>
    simp only [taskStep, hp] at hstep
    cases hstep
  | _ =>
    obtain ⟨hframe, hself⟩ := frame_taskStep h (by rw [hp]; rfl) hstep
    by_cases hq : q = p
    · rw [hq]
      exact checkOk_of_silent hself
    · exact (hok q).of_frame hq hframe horderly hstep

/-- What a call changes: the task of the caller, and a child that did not exist
before. -/
structure CallFrame (s t : Share n) (p : Fin n) : Prop where
  fdAt : t.fdAt = s.fdAt
  running : t.running = s.running
  caller : silent (t.task p) = true ∨ ∃ i, t.task p = .checking i .loadRuns
  others : ∀ q, q ≠ p → t.task q = s.task q ∧ t.envRuns q = s.envRuns q ∨ t.task q = .embryo

theorem callFrame_setTask {x : Task n} (hx : silent x = true ∨ ∃ i, x = .checking i .loadRuns) :
    CallFrame s (s.setTask p x) p := by
  refine ⟨rfl, rfl, ?_, fun q hq => .inl ⟨task_setTask_of_ne s x hq, rfl⟩⟩
  rw [task_setTask_self]
  exact hx

theorem callFrame_exofork {fork : Bool} (hstep : s.exofork p c fork = some t) :
    CallFrame s t p := by
  unfold exofork at hstep
  split at hstep <;> cases hstep
  refine ⟨rfl, rfl, .inl ?_, fun q hq => ?_⟩
  · rw [task_setTask_self]
    rfl
  · rw [task_setTask_of_ne _ _ hq]
    by_cases hqc : q = c
    · rw [hqc, task_setTask_self]
      exact .inr rfl
    · rw [task_setTask_of_ne _ _ hqc]
      exact .inl ⟨rfl, update_of_ne hqc _ _⟩

theorem callFrame_callStep {call : ShareCall n} (hstep : s.callStep p call = some t) :
    CallFrame s t p := by
  cases call with
  | check i =>
    simp only [callStep] at hstep
    split at hstep <;> cases hstep
    · exact callFrame_setTask (.inr ⟨i, rfl⟩)
    · exact callFrame_setTask (.inl rfl)
  | close | exit =>
    cases hstep
    exact callFrame_setTask (.inl rfl)
  | dup =>
    simp only [callStep] at hstep
    split at hstep <;> cases hstep <;> exact callFrame_setTask (.inl rfl)
  | fork | spawn => exact callFrame_exofork hstep

theorem fdCount_congr (h : t.fdAt = s.fdAt) (e : PipeSide) : t.fdCount e = s.fdCount e := by
  unfold fdCount
  rw [h]

theorem note_mono {ev : ShareEvent n} (hq : ∀ i, ev ≠ .call q (.check i)) (h : seen q = true) :
    s.note ev seen q = true := by
  unfold note
  split
  · next p i =>
    rw [if_neg (fun heq => hq i (by rw [heq])), h, Bool.true_or]
  · change (seen q || s.otherClosed q) = true
    rw [h, Bool.true_or]

section

variable (hok : ∀ q, s.CheckOk seen q)
include hok

theorem checkOk_call {call : ShareCall n} (hstep : s.callStep p call = some t) (q : Fin n) :
    t.CheckOk (s.note (.call p call) seen) q := by
  have hframe := callFrame_callStep hstep
  by_cases hq : q = p
  · subst hq
    rcases hframe.caller with hsilent | ⟨i, hcheck⟩
    · exact checkOk_of_silent hsilent
    · unfold CheckOk
      simp only [hcheck]
  · rcases hframe.others q hq with ⟨htask, hruns⟩ | hembryo
    · refine (hok q).congr htask (congrFun hframe.fdAt q) ?_ (fun _ => hruns) ?_ ?_
      · exact fun hrun => (congrFun hframe.running q).symm.trans hrun
      · refine note_mono (fun i heq => ?_)
        cases heq
        exact hq rfl
      · intro _ e _
        rw [fdCount_congr hframe.fdAt]
    · refine checkOk_of_silent ?_
      rw [hembryo]
      rfl

/-- A process that is scheduled again will read the counts again. -/
theorem checkOk_run (horderly : s.Orderly (.run p)) (q : Fin n) : CheckOk { s with
      running := update s.running p true
      envRuns := update s.envRuns p (s.envRuns p + 1) } (s.note (.run p) seen) q := by
  by_cases hq : q = p
  · subst hq
    have hstale : ∀ runs, s.checkRuns q = some runs → update s.envRuns q
        (s.envRuns q + 1) q ≠ runs := by
      intro runs hruns heq
      rw [update_self] at heq
      exact horderly (hruns.trans (congrArg some heq.symm))
    have hold := hok q
    unfold CheckOk at hold ⊢
    unfold checkRuns at hstale
    cases hp : s.task q with
    | checking i k =>
      cases k with
      | loadPipeRef runs | again runs =>
        simp only [hp] at hstale ⊢
        exact fun hfresh => absurd hfresh.2 (hstale runs rfl)
      | loadRuns | loadFdRef => trivial
    | checked i isClosed =>
      cases isClosed with
      | true =>
        simp only [hp] at hold ⊢
        exact note_mono (fun i heq => nomatch heq) hold
      | false => trivial
    | _ => trivial
  · refine (hok q).congr rfl rfl ?_ (fun _ => update_of_ne hq _ _)
      (note_mono (fun i heq => nomatch heq)) (fun _ e _ => Nat.le_refl _)
    exact fun hrun => (update_of_ne hq _ _).symm.trans hrun

theorem checkOk_stop (q : Fin n) :
    CheckOk { s with running := update s.running p false } (s.note (.stop p) seen) q := by
  refine (hok q).congr rfl rfl ?_ (fun _ => rfl) (note_mono (fun i heq => nomatch heq))
    (fun _ e _ => Nat.le_refl _)
  intro hrun
  have hrun : update s.running p false q = true := hrun
  rw [update_apply] at hrun
  split at hrun
  · cases hrun
  · exact hrun

end

theorem checkOk_event {ev : ShareEvent n} (h : s.Paired) (hok : ∀ q, s.CheckOk seen q)
    (horderly : s.Orderly ev) (hstep : s.step ncpu ev = some t) (q : Fin n) :
    t.CheckOk (s.note ev seen) q := by
  cases ev with
  | call =>
    simp only [step] at hstep
    split at hstep
    · exact checkOk_call hok hstep q
    · cases hstep
  | step =>
    simp only [step] at hstep
    split at hstep
    · next hrun => exact checkOk_step h hok hrun horderly hstep q
    · cases hstep
  | run =>
    simp only [step] at hstep
    split at hstep <;> cases hstep
    exact checkOk_run hok horderly q
  | stop =>
    cases hstep
    exact checkOk_stop hok q

end Share

/-- The processes with the record of what was closed during their calls. -/
def watched (n ncpu : Nat) : Machine (Share n × (Fin n → Bool)) (ShareEvent n) :=
  (share n ncpu).record (fun _ => false) Share.note

namespace Share

variable {n ncpu : Nat} {p : Fin n} {i : Slot}

/-- In an orderly run `_pipe_is_closed` returns 1 only if the other end was
closed at some moment of the call. -/
theorem closed_of_orderly {x : Share n × (Fin n → Bool)}
    (hreach : (watched n ncpu).ReachableUnder (fun x ev => x.1.Orderly ev) x)
    (hret : x.1.task p = .checked i true) : x.2 p = true := by
  have hinv : x.1.Paired ∧ ∀ q, x.1.CheckOk x.2 q := by
    clear hret
    induction hreach with
    | init hinit =>
      refine ⟨hinit.1.pairedStart, fun q => checkOk_of_silent ?_⟩
      rcases hinit.1.task q with hidle | ⟨hunborn, _⟩
      · rw [hidle]
        rfl
      · rw [hunborn]
        rfl
    | step ev _ horderly hstep ih =>
      obtain ⟨hs, hnote⟩ := Machine.record_step hstep
      refine ⟨ih.1.step hs, fun q => ?_⟩
      rw [hnote]
      exact checkOk_event ih.1 ih.2 horderly hs q
  have hok := hinv.2 p
  unfold CheckOk at hok
  simp only [hret] at hok
  exact hok

/-- Processes 0 and 1 have the read end, process 2 has the write end, and process
3 does not exist. -/
def twoReaders : Share 4 where
  fdAt := fun p i => if i ≠ 0 ∨ p = 3 then none else if p = 2 then some .write else some .read
  dataAt := fun p i => decide (i = 0 ∧ p ≠ 3)
  task := fun p => if p = 3 then .unborn else .idle
  running := fun _ => false
  envRuns := fun _ => 0

theorem twoReaders_start : twoReaders.Start := by
  refine ⟨fun p => ?_, by decide, fun _ => rfl⟩
  by_cases hp : p = 3
  · exact .inr ⟨if_pos hp, fun i => ⟨if_pos (.inr hp), decide_eq_false (fun h => h.2 hp)⟩⟩
  · exact .inl (if_neg hp)

/-- While process 0 is in the call, the writer closes its end and process 1 makes a
second descriptor for the read end. -/
theorem closed_of_orderly_dup : ∃ x, (watched 4 2).ReachableUnder (fun x ev => x.1.Orderly ev) x ∧
      x.1.task 0 = .checked 0 true ∧ x.2 0 = true := by
  have hstart : (watched 4 2).ReachableUnder (fun x ev => x.1.Orderly ev)
      (twoReaders, fun _ => false) := .init ⟨twoReaders_start, rfl⟩
  obtain ⟨x, hx, hret⟩ := Machine.exists_reachableUnder_of_exec
    (P := fun x : Share 4 × (Fin 4 → Bool) => x.1.task 0 = .checked 0 true)
    ([.run 0, .call 0 (.check 0), .step 0 true, .run 2, .call 2 (.close 0)] ++
      List.replicate 4 (.step 2 true) ++ [.stop 2, .run 1, .call 1 (.dup 0 5)] ++
      List.replicate 3 (.step 1 true) ++ List.replicate 3 (.step 0 true))
    hstart (by decide +kernel)
  exact ⟨x, hx, hret, closed_of_orderly hx hret⟩

/-- On one CPU: process 1 forks and has copied the `Fd` when process 0 is
scheduled and finds the pipe closed. The write end was never closed. -/
theorem forkRace_reachable :
    ∃ x, (watched 4 1).Reachable x ∧ x.1.task 0 = .checked 0 true ∧ x.2 0 = false ∧
      x.1.fdAt 2 0 = some .write := by
  have hstart : (watched 4 1).Reachable (twoReaders, fun _ => false) :=
    .init ⟨twoReaders_start, rfl⟩
  obtain ⟨x, hx, h⟩ := Machine.exists_reachableUnder_of_exec
    (P := fun x : Share 4 × (Fin 4 → Bool) => x.1.task 0 = .checked 0 true ∧ x.2 0 = false ∧
      x.1.fdAt 2 0 = some .write)
    [.run 1, .call 1 (.fork 3), .step 1 true, .stop 1, .run 0, .call 0 (.check 0), .step 0 true,
      .step 0 true, .step 0 true, .step 0 true]
    hstart (by decide +kernel)
  exact ⟨x, hx, h⟩

end Share

end MosSmp.User
