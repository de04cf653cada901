import Mathlib.Logic.Basic

/-!
Sequential programs with a state, errors and stops. A program either stops for
a reason `ι` and has no result at all, as after a panic, or it ends in a state
with an error code or a value; the state survives an error, as it does in C.
`wp` is the weakest precondition of a program for three postconditions: what
may be the reason of a stop, what holds after an error and what holds after a
value. Partial correctness is the case where every stop is allowed.
-/

namespace MosSmp.Lib

def Prog (ι ε σ α : Type) : Type :=
  σ → Except ι (Except ε α × σ)

namespace Prog

variable {ι ε σ α β γ : Type}

def ret (a : α) : Prog ι ε σ α :=
  fun s => .ok (.ok a, s)

def andThen (m : Prog ι ε σ α) (k : α → Prog ι ε σ β) : Prog ι ε σ β :=
  fun s =>
    match m s with
    | .error i => .error i
    | .ok (.error e, t) => .ok (.error e, t)
    | .ok (.ok a, t) => k a t

instance monadProg : Monad (Prog ι ε σ) where
  pure := ret
  bind := andThen

theorem bind_bind (m : Prog ι ε σ α) (k : α → Prog ι ε σ β) (g : β → Prog ι ε σ γ) :
    m >>= k >>= g = m >>= fun a => k a >>= g := by
  funext s
  change andThen (andThen m k) g s = andThen m (fun a => andThen (k a) g) s
  unfold andThen
  cases m s with
  | error => rfl
  | ok p =>
    obtain ⟨r, _⟩ := p
    cases r with
    | error | ok => rfl

theorem ite_bind (c : Prop) [Decidable c] (m m' : Prog ι ε σ α) (k : α → Prog ι ε σ β) :
    (if c then m else m') >>= k = if c then m >>= k else m' >>= k :=
  apply_ite (· >>= k) c m m'

/-- End with an error, in the state as it is. -/
def fail (e : ε) : Prog ι ε σ α :=
  fun s => .ok (.error e, s)

/-- End the whole program without a result. -/
def stop (i : ι) : Prog ι ε σ α :=
  fun _ => .error i

def state : Prog ι ε σ σ :=
  fun s => .ok (.ok s, s)

def update (f : σ → σ) : Prog ι ε σ Unit :=
  fun s => .ok (.ok (), f s)

/-- The result of `m` as a value, for a caller that looks at the error code. -/
def attempt (m : Prog ι ε σ α) : Prog ι ε σ (Except ε α) :=
  fun s =>
    match m s with
    | .error i => .error i
    | .ok (r, t) => .ok (.ok r, t)

/-- An `if` with no `else`. -/
def when (c : Prop) [Decidable c] (m : Prog ι ε σ Unit) : Prog ι ε σ Unit :=
  if c then m else ret ()

/-- Run `body` for every element in order. -/
def each (body : β → Prog ι ε σ Unit) : List β → Prog ι ε σ Unit
  | [] => ret ()
  | b :: rest => andThen (body b) (fun _ => each body rest)

/-- Run `body` for the elements in order until it gives a result. -/
def search (body : β → Prog ι ε σ (Option α)) : List β → Prog ι ε σ (Option α)
  | [] => ret none
  | b :: rest => andThen (body b) (fun
      | some a => ret (some a)
      | none => search body rest)

/-- The program has a value, and `f` is true of it and of the state. -/
def yields (m : Prog ι ε σ α) (f : α → σ → Bool) (s : σ) : Bool :=
  match m s with
  | .ok (.ok a, t) => f a t
  | .ok (.error _, _) => false
  | .error _ => false

variable {m : Prog ι ε σ α}

theorem exists_of_yields {f : α → σ → Bool} {s : σ} (h : m.yields f s = true) :
    ∃ a t, m s = .ok (.ok a, t) ∧ f a t = true := by
  unfold yields at h
  split at h
  · exact ⟨_, _, by assumption, h⟩
  · cases h
  · cases h

/-- The program ends with an error, and `f` is true of it and of the state. -/
def refuses (m : Prog ι ε σ α) (f : ε → σ → Bool) (s : σ) : Bool :=
  match m s with
  | .ok (.ok _, _) => false
  | .ok (.error e, t) => f e t
  | .error _ => false

theorem exists_of_refuses {f : ε → σ → Bool} {s : σ} (h : m.refuses f s = true) :
    ∃ e t, m s = .ok (.error e, t) ∧ f e t = true := by
  unfold refuses at h
  split at h
  · cases h
  · exact ⟨_, _, by assumption, h⟩
  · cases h

/-- Every stop of `m` from `s` has a reason in `E`, every error ends in `X`
and every value in `Q`. -/
def wp (m : Prog ι ε σ α) (E : ι → Prop) (X : ε → σ → Prop) (Q : α → σ → Prop) (s : σ) : Prop :=
  match m s with
  | .error i => E i
  | .ok (.error e, t) => X e t
  | .ok (.ok a, t) => Q a t

section Rules

variable {m : Prog ι ε σ α} {k : α → Prog ι ε σ β} {E E' : ι → Prop}
  {X X' : ε → σ → Prop} {Q Q' : α → σ → Prop} {R : β → σ → Prop} {s t : σ}

theorem wp_pure {a : α} : wp (pure a : Prog ι ε σ α) E X Q s ↔ Q a s := Iff.rfl

theorem wp_fail {e : ε} : wp (fail e : Prog ι ε σ α) E X Q s ↔ X e s := Iff.rfl

theorem wp_state {Q : σ → σ → Prop} : wp (state : Prog ι ε σ σ) E X Q s ↔ Q s s := Iff.rfl

theorem wp_update {f : σ → σ} {Q : Unit → σ → Prop} :
    wp (update f : Prog ι ε σ Unit) E X Q s ↔ Q () (f s) :=
  Iff.rfl

theorem wp_bind : wp (m >>= k) E X R s ↔ wp m E X (fun a t => wp (k a) E X R t) s := by
  change wp (andThen m k) E X R s ↔ _
  unfold wp andThen
  cases h : m s with
  | error => simp
  | ok p =>
    obtain ⟨r, t⟩ := p
    cases r with
    | error | ok => simp

theorem wp_attempt {Q : Except ε α → σ → Prop} :
    wp (attempt m) E X Q s ↔ wp m E (fun e => Q (.error e)) (fun a => Q (.ok a)) s := by
  unfold wp attempt
  cases h : m s with
  | error => simp
  | ok p =>
    obtain ⟨r, _⟩ := p
    cases r with
    | error | ok => simp

section

variable (h : wp m E X Q s)
include h

theorem wp.mono (hE : ∀ i, E i → E' i) (hX : ∀ e t, X e t → X' e t) (hQ : ∀ a t, Q a t → Q' a t) :
    wp m E' X' Q' s := by
  unfold wp at h ⊢
  cases hm : m s with
  | error i => exact hE i (by simpa [hm] using h)
  | ok p =>
    obtain ⟨r, t⟩ := p
    cases r with
    | error e => exact hX e t (by simpa [hm] using h)
    | ok a => exact hQ a t (by simpa [hm] using h)

theorem wp.imp (hX : ∀ e t, X e t → X' e t) (hQ : ∀ a t, Q a t → Q' a t) : wp m E X' Q' s :=
  h.mono (fun _ hi => hi) hX hQ

theorem wp.post (hQ : ∀ a t, Q a t → Q' a t) : wp m E X Q' s := h.imp (fun _ _ hx => hx) hQ

/-- Sequencing: what the first program establishes is what the rest starts from. -/
theorem wp.bind (hk : ∀ a t, Q a t → wp (k a) E X R t) : wp (m >>= k) E X R s :=
  wp_bind.mpr (h.post hk)

/-- Sequencing, where an error of the first program says more than is asked. -/
theorem wp.andThen (hX : ∀ e t, X e t → X' e t) (hk : ∀ a t, Q a t → wp (k a) E X' R t) :
    wp (m >>= k) E X' R s :=
  wp_bind.mpr (h.imp hX hk)

/-- Sequencing, where the rest looks at the error code. -/
theorem wp.attempt {k : Except ε α → Prog ι ε σ β} (hX : ∀ e t, X e t → wp (k (.error e)) E X' R t)
    (hQ : ∀ a t, Q a t → wp (k (.ok a)) E X' R t) : wp (Prog.attempt m >>= k) E X' R s :=
  wp_bind.mpr (wp_attempt.mpr (h.imp hX hQ))

theorem wp.and (h' : wp m E' X' Q' s) :
    wp m (fun i => E i ∧ E' i) (fun e t => X e t ∧ X' e t) (fun a t => Q a t ∧ Q' a t) s := by
  unfold wp at h h' ⊢
  cases hm : m s with
  | error => exact ⟨by simpa [hm] using h, by simpa [hm] using h'⟩
  | ok p =>
    obtain ⟨r, t⟩ := p
    cases r with
    | error | ok => exact ⟨by simpa [hm] using h, by simpa [hm] using h'⟩

end

variable {m m' : Prog ι ε σ α}

variable {c : Prop}

theorem wp_pos [Decidable c] (hc : c) (h : wp m E X Q s) : wp (if c then m else m') E X Q s := by
  rw [if_pos hc]
  exact h

theorem wp_neg [Decidable c] (hc : ¬ c) (h : wp m' E X Q s) : wp (if c then m else m') E X Q s := by
  rw [if_neg hc]
  exact h

/-- Without the guard the postcondition has to hold at once. -/
theorem wp_when [Decidable c] {m : Prog ι ε σ Unit} {Q : Unit → σ → Prop} (h : c → wp m E X Q s)
    (h' : ¬ c → Q () s) : wp (when c m) E X Q s := by
  by_cases hc : c
  · exact wp_pos hc (h hc)
  · exact wp_neg hc (h' hc)

theorem wp.value {a : α} (h : wp m E X Q s) (hm : m s = .ok (.ok a, t)) : Q a t := by
  simpa [wp, hm] using h

theorem wp.error {e : ε} (h : wp m E X Q s) (hm : m s = .ok (.error e, t)) : X e t := by
  simpa [wp, hm] using h

/-- The postcondition may refer to the run itself. -/
theorem wp.ran (h : wp m E X Q s) : wp m E X (fun a t => Q a t ∧ m s = .ok (.ok a, t)) s := by
  unfold wp at h ⊢
  cases hm : m s with
  | error => simpa [hm] using h
  | ok p =>
    obtain ⟨r, t⟩ := p
    cases r with
    | error => simpa [hm] using h
    | ok => exact ⟨by simpa [hm] using h, rfl⟩

/-- With no stop allowed the program has a result. -/
theorem wp.total (h : wp m (fun _ => False) X Q s) : ∃ r t, m s = .ok (r, t) := by
  unfold wp at h
  cases hm : m s with
  | error => simp [hm] at h
  | ok p => exact ⟨p.1, p.2, rfl⟩

/-- With no stop and no error allowed the program has a value. -/
theorem wp.returns (h : wp m (fun _ => False) (fun _ _ => False) Q s) :
    ∃ a t, m s = .ok (.ok a, t) := by
  obtain ⟨r, t, hm⟩ := h.total
  cases r with
  | error => exact absurd (h.error hm) id
  | ok a => exact ⟨a, t, hm⟩

variable {I : List β → σ → Prop}

/-- The loop rule: `I rest` holds when the elements `rest` are still to be done. -/
theorem wp_each {g : β → Prog ι ε σ Unit}
    (hg : ∀ b rest t, I (b :: rest) t → wp (g b) E X (fun _ => I rest) t) (l : List β)
    (hs : I l s) : wp (each g l) E X (fun _ => I []) s := by
  induction l generalizing s with
  | nil => exact hs
  | cons b rest ih =>
    apply (hg b rest s hs).bind (k := fun _ => each g rest)
    intro _ t ht
    exact ih ht

variable {R : Option α → σ → Prop}

/-- The rule for a search: as long as nothing is found the invariant is kept. -/
theorem wp_search {g : β → Prog ι ε σ (Option α)}
    (hg : ∀ b rest t, I (b :: rest) t → wp (g b) E X (fun r t' =>
      match r with
      | some a => R (some a) t'
      | none => I rest t') t)
    (hend : ∀ t, I [] t → R none t) (l : List β) (hs : I l s) : wp (search g l) E X R s := by
  induction l generalizing s with
  | nil => exact hend s hs
  | cons b rest ih =>
    apply (hg b rest s hs).bind (k := fun
      | some a => ret (some a)
      | none => search g rest)
    intro r t ht
    cases r with
    | some => exact ht
    | none => exact ih ht

/-- A search by index: `I i` holds when the indices below `i` have been tried. -/
theorem wp_search_range {g : Nat → Prog ι ε σ (Option α)} {I : Nat → σ → Prop} {n : Nat}
    (hg : ∀ i t, i < n → I i t → wp (g i) E X (fun r t' =>
      match r with
      | some a => R (some a) t'
      | none => I (i + 1) t') t)
    (hend : ∀ t, I n t → R none t) (hs : I 0 s) : wp (search g (List.range n)) E X R s := by
  rw [List.range_eq_range']
  apply wp_search (I := fun rest t => ∃ i k, rest = List.range' i k ∧ i + k = n ∧ I i t)
  · rintro b rest t ⟨i, k, hrest, hk, ht⟩
    cases k with
    | zero => cases hrest
    | succ k =>
      cases hrest
      refine (hg b t (by omega) ht).post (fun r u hu => ?_)
      cases r with
      | some => exact hu
      | none => exact ⟨b + 1, k, rfl, by omega, hu⟩
  · rintro t ⟨i, k, hrest, hk, ht⟩
    cases k with
    | zero => exact hend t (hk ▸ ht)
    | succ => cases hrest
  · exact ⟨0, n, rfl, Nat.zero_add n, hs⟩

end Rules

/-- `I` survives the program wherever it ends. -/
def Keeps (I : σ → Prop) (m : Prog ι ε σ α) : Prop :=
  ∀ s, I s → wp m (fun _ => True) (fun _ => I) (fun _ => I) s

namespace Keeps

variable {I : σ → Prop} {m : Prog ι ε σ α} {k : α → Prog ι ε σ β}

theorem pure (a : α) : Keeps I (Pure.pure a : Prog ι ε σ α) := fun _ hs => hs

theorem fail (e : ε) : Keeps I (Prog.fail e : Prog ι ε σ α) := fun _ hs => hs

theorem stop (i : ι) : Keeps I (Prog.stop i : Prog ι ε σ α) := fun _ _ => trivial

theorem state : Keeps I (Prog.state : Prog ι ε σ σ) := fun _ hs => hs

theorem update {f : σ → σ} (h : ∀ s, I s → I (f s)) : Keeps I (Prog.update f : Prog ι ε σ Unit) := h

theorem bind (h : Keeps I m) (hk : ∀ a, Keeps I (k a)) : Keeps I (m >>= k) := by
  intro s hs
  exact (h s hs).bind (fun a t ht => hk a t ht)

theorem ite {c : Prop} [Decidable c] {m' : Prog ι ε σ α} (h : Keeps I m) (h' : Keeps I m') :
    Keeps I (if c then m else m') := by
  by_cases hc : c
  · rw [if_pos hc]
    exact h
  · rw [if_neg hc]
    exact h'

theorem when {c : Prop} [Decidable c] {m : Prog ι ε σ Unit} (h : Keeps I m) :
    Keeps I (Prog.when c m) :=
  h.ite (.pure ())

theorem attempt (h : Keeps I m) : Keeps I (Prog.attempt m) := fun s hs => wp_attempt.mpr (h s hs)

theorem each {body : β → Prog ι ε σ Unit} (h : ∀ b, Keeps I (body b)) (l : List β) :
    Keeps I (Prog.each body l) :=
  fun _ hs => wp_each (I := fun _ => I) (fun b _ t ht => h b t ht) l hs

theorem search {body : β → Prog ι ε σ (Option α)} (h : ∀ b, Keeps I (body b)) (l : List β) :
    Keeps I (Prog.search body l) := by
  intro s hs
  refine wp_search (I := fun _ => I) (fun b _ t ht => (h b t ht).post (fun r _ hr => ?_))
    (fun _ ht => ht) l hs
  cases r <;> exact hr

/-- A program that keeps `I` ends in it. -/
theorem result (h : Keeps I m) {s t : σ} {r : Except ε α} (hs : I s) (hm : m s = .ok (r, t)) :
    I t := by
  have hwp := h s hs
  cases r with
  | ok => exact hwp.value hm
  | error => exact hwp.error hm

end Keeps

end Prog

end MosSmp.Lib
