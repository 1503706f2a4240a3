import TypedScript.Bindings
import Mathlib.Data.List.Basic
import Mathlib.Logic.Function.Basic

/-! # Laws of bindings

A binding that is added is found, and it hides nothing but its own name. -/

namespace TypedScript.Bindings

variable {α : Type} {b : Bindings α} {x y : String} {a : α}

theorem lookup_filter_ne (b : Bindings α) (h : y ≠ x) :
    List.lookup y (b.filter (·.1 != x)) = List.lookup y b := by
  induction b with
  | nil => rfl
  | cons e rest ih =>
    obtain ⟨z, c⟩ := e
    by_cases hz : z = x
    · subst hz
      simp only [List.filter_cons, bne_self_eq_false, Bool.false_eq_true, if_false, ih,
        List.lookup_cons, beq_eq_false_iff_ne.mpr h]
    · have hk : (z != x) = true := bne_iff_ne.mpr hz
      simp only [List.filter_cons, hk, if_true, List.lookup_cons, ih]

@[simp] theorem find?_insert_self (b : Bindings α) (x : String) (a : α) :
    (b.insert x a).find? x = some a := by
  simp [insert, find?]

theorem find?_insert_of_ne (b : Bindings α) (a : α) (h : y ≠ x) :
    (b.insert x a).find? y = b.find? y := by
  simp only [insert, find?, List.lookup_cons, beq_eq_false_iff_ne.mpr h]
  exact lookup_filter_ne b h

theorem find?_insert (b : Bindings α) (x y : String) (a : α) :
    (b.insert x a).find? y = if y = x then some a else b.find? y := by
  split
  · next h => rw [h, find?_insert_self]
  · next h => exact find?_insert_of_ne b a h

theorem contains_iff : b.contains x = true ↔ ∃ a, b.find? x = some a := by
  rw [contains, Option.isSome_iff_exists]

theorem contains_iff_mem : b.contains x = true ↔ x ∈ b.map (·.1) := by
  rw [← not_iff_not, contains, Option.not_isSome_iff_eq_none, find?, List.lookup_eq_none_iff,
    List.mem_map]
  push Not
  simp only [bne_iff_ne, ne_comm]

/-- Where no name is bound twice, what is found is what is bound. -/
theorem find?_eq_some_iff (hn : (b.map (·.1)).Nodup) : b.find? x = some a ↔ (x, a) ∈ b := by
  induction b with
  | nil => simp [find?]
  | cons e rest ih =>
    obtain ⟨y, c⟩ := e
    rw [List.map_cons, List.nodup_cons] at hn
    by_cases hx : x = y
    · subst hx
      have hnew : (x, a) ∉ rest := fun h => hn.1 (List.mem_map.mpr ⟨_, h, rfl⟩)
      simp [find?, hnew, eq_comm]
    · have hne : (x == y) = false := beq_eq_false_iff_ne.mpr hx
      simp only [find?, List.lookup_cons, hne, List.mem_cons, Prod.mk.injEq, hx, false_and,
        false_or]
      exact ih hn.2

theorem contains_iff_mem_entries {entries : List (String × α)}
    (h : ∀ a, b.find? x = some a ↔ (x, a) ∈ entries) :
    b.contains x = true ↔ x ∈ entries.map (·.1) := by
  rw [contains_iff]
  simp [h]

theorem find?_eq_none_iff {entries : List (String × α)}
    (h : ∀ a, b.find? x = some a ↔ (x, a) ∈ entries) :
    b.find? x = none ↔ x ∉ entries.map (·.1) := by
  rw [← contains_iff_mem_entries h, contains, Option.not_isSome_iff_eq_none]

@[simp] theorem contains_insert :
    (b.insert x a).contains y = true ↔ y = x ∨ b.contains y = true := by
  rw [contains, find?_insert, contains]
  split <;> simp_all

/-- A new name adds its own binding to those that there were. -/
theorem find?_insert_of_fresh {c : α} (hnew : b.contains x ≠ true) :
    (b.insert x a).find? y = some c ↔ b.find? y = some c ∨ x = y ∧ a = c := by
  rw [find?_insert]
  split
  · next h =>
    subst h
    have hnone : b.find? y ≠ some c := fun hfound => hnew (contains_iff.mpr ⟨c, hfound⟩)
    simp [hnone]
  · next h => simp [Ne.symm h]

@[simp] theorem contains_nil : contains ([] : Bindings α) x = false := rfl

/-- What is found after adding entries one by one follows a total map that is updated alongside. -/
theorem find?_foldl_insert (entries : List (String × α)) (b : Bindings α) (g : String → α)
    (h : b.find? x = some (g x) ∨ x ∈ entries.map (·.1)) :
    (entries.foldl (fun b e => insert b e.1 e.2) b).find? x =
      some (entries.foldl (fun g e => Function.update g e.1 e.2) g x) := by
  induction entries generalizing b g with
  | nil => simpa using h
  | cons e rest ih =>
    rw [List.foldl_cons, List.foldl_cons]
    apply ih
    by_cases hx : x = e.1
    · left
      rw [hx, find?_insert_self, Function.update_self]
    · rcases h with h | h
      · left
        rw [find?_insert_of_ne b e.2 hx, Function.update_of_ne hx, h]
      · right
        simpa [hx] using h

/-- Exactly the names of the entries are bound. -/
theorem contains_ofList {entries : List (String × α)} :
    (ofList entries).contains x = true ↔ x ∈ entries.map (·.1) := by
  suffices h : ∀ b : Bindings α,
      (entries.foldl (fun b e => insert b e.1 e.2) b).contains x = true ↔
        x ∈ entries.map (·.1) ∨ b.contains x = true by
    simpa [ofList] using h []
  induction entries with
  | nil => simp
  | cons e rest ih =>
    intro b
    rw [List.foldl_cons, ih, contains_insert]
    simp only [List.map_cons, List.mem_cons]
    tauto

theorem find?_foldl_insert_of_notMem {entries : List (String × α)} (b : Bindings α)
    (h : x ∉ entries.map (·.1)) :
    (entries.foldl (fun b e => insert b e.1 e.2) b).find? x = b.find? x := by
  induction entries generalizing b with
  | nil => rfl
  | cons e rest ih =>
    rw [List.map_cons, List.mem_cons, not_or] at h
    rw [List.foldl_cons, ih _ h.2, find?_insert_of_ne b e.2 h.1]

/-- What is found for a name that has entries is one of them, whatever was bound before. -/
theorem exists_find?_foldl_insert {entries : List (String × α)} (b : Bindings α)
    (h : x ∈ entries.map (·.1)) :
    ∃ a, (x, a) ∈ entries ∧
      (entries.foldl (fun b e => insert b e.1 e.2) b).find? x = some a := by
  induction entries generalizing b with
  | nil => simp at h
  | cons e rest ih =>
    rw [List.foldl_cons]
    by_cases hrest : x ∈ rest.map (·.1)
    · obtain ⟨a, ha, hfind⟩ := ih (b.insert e.1 e.2) hrest
      exact ⟨a, List.mem_cons_of_mem e ha, hfind⟩
    · obtain rfl : x = e.1 := by simpa [hrest] using h
      refine ⟨e.2, List.mem_cons_self, ?_⟩
      rw [find?_foldl_insert_of_notMem _ hrest, find?_insert_self]

/-- Where no name is bound twice, every entry is found. -/
theorem find?_ofList {entries : List (String × α)} (hn : (entries.map (·.1)).Nodup)
    (h : (x, a) ∈ entries) : (ofList entries).find? x = some a := by
  suffices key : ∀ b : Bindings α,
      (entries.foldl (fun b e => insert b e.1 e.2) b).find? x = some a from key []
  induction entries with
  | nil => simp at h
  | cons e rest ih =>
    intro b
    rw [List.map_cons, List.nodup_cons] at hn
    rw [List.foldl_cons]
    rcases List.mem_cons.mp h with rfl | h
    · rw [find?_foldl_insert_of_notMem _ hn.1, find?_insert_self]
    · exact ih hn.2 h _

theorem find?_ofList_iff {entries : List (String × α)} (hn : (entries.map (·.1)).Nodup) :
    (ofList entries).find? x = some a ↔ (x, a) ∈ entries := by
  constructor
  · intro h
    have hx : x ∈ entries.map (·.1) := contains_ofList.mp (contains_iff.mpr ⟨a, h⟩)
    obtain ⟨c, hc, hfind⟩ := exists_find?_foldl_insert [] hx
    obtain rfl : a = c := Option.some.inj (h.symm.trans hfind)
    exact hc
  · exact find?_ofList hn

/-- Bindings in which the same is found, in whatever order they stand. -/
def Agree (b b' : Bindings α) : Prop := ∀ x, b.find? x = b'.find? x

theorem Agree.of_find?_iff {b' : Bindings α}
    (h : ∀ x a, b.find? x = some a ↔ b'.find? x = some a) : b.Agree b' :=
  fun x => Option.ext (h x)

theorem Agree.contains {b' : Bindings α} (h : b.Agree b') (x : String) :
    b.contains x = b'.contains x := by
  rw [Bindings.contains, h x, Bindings.contains]

theorem Agree.insert {b' : Bindings α} (h : b.Agree b') (x : String) (a : α) :
    (b.insert x a).Agree (b'.insert x a) := by
  intro y
  rw [find?_insert, find?_insert, h y]

end TypedScript.Bindings
