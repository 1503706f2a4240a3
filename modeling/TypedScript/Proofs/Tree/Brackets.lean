import TypedScript.Tree.Event

/-! # The bracket structure of events

Events that start and finish nodes are brackets around tokens. What was completed last outside all
other nodes is a token or a bracket whose events, line breaks aside, spell out a shape. -/

namespace TypedScript

namespace Event

/-- How many nodes are open after an event. A finish with nothing open is ignored. -/
def depth (d : Nat) : Event → Nat
  | .start _ => d + 1
  | .finish => d - 1
  | .token _ _ | .lineBreak => d

def openNodes (es : List Event) : Nat := es.foldl depth 0

/-- Whether an event completes a node or a token outside all other nodes, when `d` nodes are open
before it. -/
def completes (d : Nat) : Event → Bool
  | .token _ _ => d == 0
  | .finish => d == 1
  | .start _ | .lineBreak => false

def token? : Event → Option (String × String)
  | .token kind text => some (kind, text)
  | .start _ | .finish | .lineBreak => none

end Event

open Event

inductive Shape
  | token (kind text : String)
  | node (kind : String) (inside : List Shape)
  deriving Repr

/-- The events are those of the shapes, one after the other, with line breaks anywhere. -/
inductive Brackets : List Event → List Shape → Prop
  | nil : Brackets [] []
  | lineBreak {es : List Event} {ss : List Shape} (rest : Brackets es ss) :
      Brackets (.lineBreak :: es) ss
  | token {es : List Event} {ss : List Shape} (kind text : String) (rest : Brackets es ss) :
      Brackets (.token kind text :: es) (.token kind text :: ss)
  | node {inner es : List Event} {inside ss : List Shape} (kind : String)
      (within : Brackets inner inside) (rest : Brackets es ss) :
      Brackets (.start kind :: (inner ++ .finish :: es)) (.node kind inside :: ss)

namespace Brackets

variable {es es' : List Event} {ss ss' : List Shape}

theorem append (h : Brackets es ss) (h' : Brackets es' ss') : Brackets (es ++ es') (ss ++ ss') := by
  induction h with
  | nil => exact h'
  | lineBreak _ ih => exact .lineBreak ih
  | token kind text _ ih => exact .token kind text ih
  | node kind within _ _ ih =>
    simp only [List.cons_append, List.append_assoc]
    exact .node kind within ih

end Brackets

namespace Event

theorem openNodes_append (es es' : List Event) :
    openNodes (es ++ es') = es'.foldl depth (openNodes es) := List.foldl_append

/-- The innermost open node: the events since it was started are closed brackets. -/
theorem exists_innermost {es : List Event} {d : Nat} (h : openNodes es = d + 1) :
    ∃ front kind inner inside, es = front ++ .start kind :: inner ∧ openNodes front = d ∧
      Brackets inner inside := by
  induction hn : es.length using Nat.strongRecOn generalizing es d with
  | ind n ih =>
    rcases List.eq_nil_or_concat es with rfl | ⟨es, e, rfl⟩
    · cases h
    · have hlen : es.length < n := by
        rw [← hn, List.concat_eq_append, List.length_append]
        exact Nat.lt_succ_self _
      rw [List.concat_eq_append, openNodes_append] at h
      simp only [List.concat_eq_append]
      cases e with
      | start kind => exact ⟨es, kind, [], [], rfl, Nat.succ.inj h, .nil⟩
      | token kind text =>
        obtain ⟨front, outer, inner, inside, rfl, hfront, hinner⟩ := ih _ hlen h rfl
        exact ⟨front, outer, inner ++ [.token kind text], _, by simp, hfront,
          hinner.append (.token kind text .nil)⟩
      | lineBreak =>
        obtain ⟨front, outer, inner, inside, rfl, hfront, hinner⟩ := ih _ hlen h rfl
        exact ⟨front, outer, inner ++ [.lineBreak], _, by simp, hfront,
          hinner.append (.lineBreak .nil)⟩
      | finish =>
        -- The finished node belongs to the one around it, which is the innermost now.
        have hes : openNodes es = d + 1 + 1 := by
          have : openNodes es - 1 = d + 1 := h
          omega
        obtain ⟨around, kind, inner, inside, rfl, haround, hinner⟩ := ih _ hlen hes rfl
        have hshort : around.length < n := by
          rw [List.length_append] at hlen
          omega
        obtain ⟨front, outer, before, siblings, rfl, hfront, hbefore⟩ := ih _ hshort haround rfl
        exact ⟨front, outer, before ++ .start kind :: (inner ++ [.finish]), _, by simp, hfront,
          hbefore.append (.node kind hinner .nil)⟩

/-- Some event completes a node or a token outside all others. -/
def Completed (es : List Event) : Prop :=
  ∃ front e back, es = front ++ e :: back ∧ e.completes (openNodes front) = true

/-- The last node or token that the events complete outside all others, with what comes before it,
its own events and what comes behind it. -/
structure LastCompleted (es front body back : List Event) (s : Shape) : Prop where
  split : es = front ++ body ++ back
  outside : openNodes front = 0
  brackets : Brackets body [s]
  last : ∀ p e q, back = p ++ e :: q → e.completes (openNodes (front ++ body ++ p)) = false

/-- Of the events that complete something there is a last one. -/
theorem exists_last {es : List Event} (h : Completed es) :
    ∃ front e back, es = front ++ e :: back ∧ e.completes (openNodes front) = true ∧
      ∀ p e' q, back = p ++ e' :: q → e'.completes (openNodes (front ++ e :: p)) = false := by
  obtain ⟨front, e, back, rfl, he⟩ := h
  induction hn : back.length using Nat.strongRecOn generalizing front e back with
  | ind n ih =>
    by_cases hlater : ∃ p e' q, back = p ++ e' :: q ∧
        e'.completes (openNodes (front ++ e :: p)) = true
    · obtain ⟨p, e', q, rfl, he'⟩ := hlater
      have hlen : q.length < n := by
        rw [← hn, List.length_append, List.length_cons]
        omega
      have hlast := ih _ hlen (front ++ e :: p) e' q he' rfl
      rwa [List.append_assoc, List.cons_append] at hlast
    · refine ⟨front, e, back, rfl, he, fun p e' q hback => ?_⟩
      exact Bool.eq_false_iff.mpr fun he' => hlater ⟨p, e', q, hback, he'⟩

theorem exists_lastCompleted {es : List Event} (h : Completed es) :
    ∃ front body back s, LastCompleted es front body back s := by
  obtain ⟨front, e, back, rfl, he, hlast⟩ := exists_last h
  cases e with
  | start kind => cases he
  | lineBreak => cases he
  | token kind text =>
    refine ⟨front, [.token kind text], back, .token kind text, by simp,
      by simpa [completes] using he, .token kind text .nil, ?_⟩
    simpa using hlast
  | finish =>
    obtain ⟨outer, kind, inner, inside, rfl, houter, hinner⟩ :=
      exists_innermost (d := 0) (by simpa [completes] using he)
    refine ⟨outer, .start kind :: (inner ++ [.finish]), back, .node kind inside, by simp, houter,
      .node kind hinner .nil, ?_⟩
    simpa using hlast

end Event

end TypedScript
