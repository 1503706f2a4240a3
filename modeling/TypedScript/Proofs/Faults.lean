import TypedScript.Typing.Env
import TypedScript.Layout
import Mathlib.Data.List.Basic

/-! # Computations that may fail

How a computation that ended well can be taken apart, step by step and along a list. -/

namespace TypedScript

variable {ε α β : Type}

theorem bind_eq_ok {x : Except ε α} {f : α → Except ε β} {b : β} :
    x >>= f = .ok b ↔ ∃ a, x = .ok a ∧ f a = .ok b := by
  cases x with
  | error e => simp [bind, Except.bind]
  | ok a => simp [bind, Except.bind]

@[simp] theorem ok_bind {a : α} {f : α → Except ε β} : Except.ok a >>= f = f a := rfl

@[simp] theorem error_bind {e : ε} {f : α → Except ε β} :
    (Except.error e : Except ε α) >>= f = .error e := rfl

@[simp] theorem pure_eq_ok {a : α} : (pure a : Except ε α) = .ok a := rfl

theorem mapError_eq_ok {ε' : Type} {x : Except ε α} {f : ε → ε'} {a : α} :
    x.mapError f = .ok a ↔ x = .ok a := by
  cases x with
  | error e => simp [Except.mapError]
  | ok a => simp [Except.mapError]

@[simp] theorem reject_ne_ok {e : TypeError} {span : Span} {a : α} : reject e span ≠ .ok a := by
  simp [reject]

/-- What holds at the start and is kept by every step along a list holds at its end. -/
theorem foldlM_ok {f : β → α → Except ε β} {xs : List α} {b b' : β} (P : List α → β → Prop)
    (init : P [] b)
    (step : ∀ done a rest c c', xs = done ++ a :: rest → P done c → f c a = .ok c' →
      P (done ++ [a]) c')
    (h : xs.foldlM f b = .ok b') : P xs b' := by
  suffices key : ∀ todo done c, xs = done ++ todo → P done c → todo.foldlM f c = .ok b' →
      P xs b' from key xs [] b rfl init h
  intro todo
  induction todo with
  | nil =>
    intro done c hx hc ht
    simp only [List.foldlM_nil, pure_eq_ok, Except.ok.injEq] at ht
    rw [List.append_nil] at hx
    rw [← ht, hx]
    exact hc
  | cons a rest ih =>
    intro done c hx hc ht
    rw [List.foldlM_cons] at ht
    obtain ⟨c', hf, hr⟩ := bind_eq_ok.mp ht
    exact ih (done ++ [a]) c' (by rw [hx]; simp) (step done a rest c c' hx hc hf) hr

/-- Steps that can all be taken, each in the states that the others lead to, lead to an end. -/
theorem foldlM_total {f : β → α → Except ε β} {xs : List α} {b : β} (P : List α → β → Prop)
    (init : P [] b)
    (step : ∀ done a rest c, xs = done ++ a :: rest → P done c →
      ∃ c', f c a = .ok c' ∧ P (done ++ [a]) c') :
    ∃ b', xs.foldlM f b = .ok b' ∧ P xs b' := by
  suffices key : ∀ todo done c, xs = done ++ todo → P done c →
      ∃ b', todo.foldlM f c = .ok b' ∧ P xs b' from key xs [] b rfl init
  intro todo
  induction todo with
  | nil =>
    intro done c hx hc
    rw [List.append_nil] at hx
    exact ⟨c, rfl, hx ▸ hc⟩
  | cons a rest ih =>
    intro done c hx hc
    obtain ⟨c', hf, hc'⟩ := step done a rest c hx hc
    obtain ⟨b', hr, hb'⟩ := ih (done ++ [a]) c' (by rw [hx]; simp) hc'
    exact ⟨b', by rw [List.foldlM_cons, hf]; exact hr, hb'⟩

theorem forM_eq_ok {f : α → Except ε Unit} {xs : List α} {u : Unit} :
    xs.forM f = .ok u ↔ ∀ x ∈ xs, f x = .ok () := by
  rw [List.forM_eq_forM]
  induction xs with
  | nil => simp
  | cons x rest ih =>
    rw [List.forM_cons, bind_eq_ok, List.forall_mem_cons, ← ih]
    constructor
    · rintro ⟨⟨⟩, hx, hr⟩
      exact ⟨hx, hr⟩
    · rintro ⟨hx, hr⟩
      exact ⟨(), hx, hr⟩

/-- Elements that are computed one by one stand in the order of what they were computed from. -/
theorem mapM_ok {f : α → Except ε β} {xs : List α} {ys : List β} (h : xs.mapM f = .ok ys) :
    List.Forall₂ (fun x y => f x = .ok y) xs ys := by
  induction xs generalizing ys with
  | nil =>
    simp only [List.mapM_nil, pure_eq_ok, Except.ok.injEq] at h
    rw [← h]
    exact .nil
  | cons x rest ih =>
    rw [List.mapM_cons] at h
    obtain ⟨y, hy, h⟩ := bind_eq_ok.mp h
    obtain ⟨zs, hz, h⟩ := bind_eq_ok.mp h
    simp only [pure_eq_ok, Except.ok.injEq] at h
    rw [← h]
    exact .cons hy (ih hz)

theorem mapM_of_forall₂ {f : α → Except ε β} {xs : List α} {ys : List β}
    (h : List.Forall₂ (fun x y => f x = .ok y) xs ys) : xs.mapM f = .ok ys := by
  induction h with
  | nil => rfl
  | cons hy _ ih => rw [List.mapM_cons, hy, ok_bind, ih]; rfl

/-- The order in which elements are computed decides the order of the results and nothing else. -/
theorem mapM_ok_perm {f : α → Except ε β} {xs xs' : List α} {ys ys' : List β} (hp : xs'.Perm xs)
    (h : xs.mapM f = .ok ys) (h' : xs'.mapM f = .ok ys') : ys'.Perm ys := by
  have hall : ∀ {xs : List α} {ys : List β}, xs.mapM f = .ok ys →
      xs.filterMap (fun x => (f x).toOption) = ys := by
    intro xs ys h
    have hrel := mapM_ok h
    clear h
    induction hrel with
    | nil => rfl
    | cons hy _ ih => rw [List.filterMap_cons, hy, ih]; rfl
  rw [← hall h, ← hall h']
  exact hp.filterMap _

theorem mapM_ok_mem {f : α → Except ε β} {xs : List α} {ys : List β} {y : β}
    (h : xs.mapM f = .ok ys) (hy : y ∈ ys) : ∃ x ∈ xs, f x = .ok y := by
  have hall := mapM_ok h
  clear h
  induction hall with
  | nil => simp at hy
  | @cons x y' xs ys hf _ ih =>
    rcases List.mem_cons.mp hy with rfl | hy
    · exact ⟨x, List.mem_cons_self, hf⟩
    · obtain ⟨z, hz, hzf⟩ := ih hy
      exact ⟨z, List.mem_cons_of_mem x hz, hzf⟩

theorem mapM_ok_mem_source {f : α → Except ε β} {xs : List α} {ys : List β} {x : α}
    (h : xs.mapM f = .ok ys) (hx : x ∈ xs) : ∃ y ∈ ys, f x = .ok y := by
  have hall := mapM_ok h
  clear h
  induction hall with
  | nil => simp at hx
  | @cons x' y xs ys hf _ ih =>
    rcases List.mem_cons.mp hx with rfl | hx
    · exact ⟨y, List.mem_cons_self, hf⟩
    · obtain ⟨z, hz, hzf⟩ := ih hx
      exact ⟨z, List.mem_cons_of_mem y hz, hzf⟩

theorem mapM_isOk {f : α → Except ε β} {xs : List α} :
    (∃ ys, xs.mapM f = .ok ys) ↔ ∀ x ∈ xs, ∃ y, f x = .ok y := by
  constructor
  · rintro ⟨ys, h⟩ x hx
    obtain ⟨y, -, hy⟩ := mapM_ok_mem_source h hx
    exact ⟨y, hy⟩
  · intro h
    induction xs with
    | nil => exact ⟨[], rfl⟩
    | cons x rest ih =>
      obtain ⟨y, hy⟩ := h x List.mem_cons_self
      obtain ⟨ys, hys⟩ := ih fun z hz => h z (List.mem_cons_of_mem x hz)
      exact ⟨y :: ys, by rw [List.mapM_cons, hy, ok_bind, hys]; rfl⟩

/-- What each element keeps, the list keeps. -/
theorem mapM_ok_map {γ : Type} {f : α → Except ε β} {xs : List α} {ys : List β} {g : β → γ}
    {k : α → γ} (h : xs.mapM f = .ok ys) (keep : ∀ x ∈ xs, ∀ y, f x = .ok y → g y = k x) :
    ys.map g = xs.map k := by
  have hall := mapM_ok h
  clear h
  induction hall with
  | nil => rfl
  | @cons x y xs ys hf _ ih =>
    rw [List.map_cons, List.map_cons, keep x List.mem_cons_self y hf,
      ih fun z hz => keep z (List.mem_cons_of_mem x hz)]

theorem mapM_flatMap {γ : Type} {f : α → List β} {g : β → Except ε γ} {xs : List α}
    {ys : List (List γ)} (h : xs.mapM (fun x => (f x).mapM g) = .ok ys) :
    (xs.flatMap f).mapM g = .ok ys.flatten := by
  induction xs generalizing ys with
  | nil =>
    simp only [List.mapM_nil, pure_eq_ok, Except.ok.injEq] at h
    simp [← h]
  | cons x rest ih =>
    simp only [List.mapM_cons, bind_eq_ok, pure_eq_ok, Except.ok.injEq] at h
    obtain ⟨y, hy, zs, hz, rfl⟩ := h
    simp [List.mapM_append, hy, ih hz]

end TypedScript
