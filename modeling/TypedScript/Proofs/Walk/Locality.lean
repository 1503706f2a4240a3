import TypedScript.Proofs.Faults
import TypedScript.Proofs.Tree.Position
import TypedScript.Walk.Script

/-! # Reading is local

What is read off a node depends on the node and what is inside it, wherever the node stands in its
tree, and the cursor comes back to the node on every way out. -/

namespace TypedScript

namespace Node

def meaningful (ns : List Node) : List Node := ns.filter fun n => !n.isTrivia

theorem meaningful_of_isTrivia {n : Node} (h : n.isTrivia = true) (ns : List Node) :
    meaningful (n :: ns) = meaningful ns := by
  simp [meaningful, h]

theorem meaningful_of_not_isTrivia {n : Node} (h : n.isTrivia ≠ true) (ns : List Node) :
    meaningful (n :: ns) = n :: meaningful ns := by
  simp [meaningful, h]

end Node

namespace Walk

variable {α β : Type}

def exit (c : Cursor) :
    Except (Located ParseError) α → EStateM.Result (Located ParseError) Cursor α
  | .ok a => .ok a c
  | .error e => .error e c

/-- Going up leads from any child back to the node. -/
theorem leave_exit (source : String) (above focus : Node) (i : Nat) (trail : List (Node × Nat))
    (r : Except (Located ParseError) α) :
    leave (exit ⟨source, (above, i) :: trail, focus⟩ r) = exit ⟨source, trail, above⟩ r := by
  cases r <;> rfl

/-- What a walk reads off the root of a tree. -/
def reading (w : Walk α) (source : String) (n : Node) : Except (Located ParseError) α :=
  match w ⟨source, [], n⟩ with
  | .ok a _ => .ok a
  | .error e _ => .error e

/-- The walk sees nothing but the node it starts on and what is inside it, and it ends there. -/
def Steady (w : Walk α) : Prop := ∀ c : Cursor, w c = exit c (w.reading c.source c.focus)

/-- The walk stays among the children of one node and sees nothing above them. -/
def Sideways (w : Walk α) : Prop :=
  ∀ source above i focus, ∃ r j focus', ∀ trail,
    w ⟨source, (above, i) :: trail, focus⟩ = exit ⟨source, (above, j) :: trail, focus'⟩ r

section

variable {w : Walk α} {f : α → Walk β}

theorem bind_of_ok {c d : Cursor} {a : α} (h : w c = .ok a d) : (w >>= f) c = f a d :=
  congrArg (fun out => EStateM.bind (fun _ => out) f c) h

theorem bind_of_error {c d : Cursor} {e : Located ParseError} (h : w c = .error e d) :
    (w >>= f) c = .error e d :=
  congrArg (fun out => EStateM.bind (fun _ => out) f c) h

theorem reading_of_exit {source : String} {n : Node} {d : Cursor}
    {r : Except (Located ParseError) α} (h : w ⟨source, [], n⟩ = exit d r) :
    w.reading source n = r := by
  rw [reading, h]
  cases r <;> rfl

namespace Steady

/-- It is enough to know some outcome that does not depend on what is above. -/
theorem of_exists (h : ∀ source focus, ∃ r, ∀ trail,
    w ⟨source, trail, focus⟩ = exit ⟨source, trail, focus⟩ r) : Steady w := by
  intro c
  obtain ⟨r, hr⟩ := h c.source c.focus
  rw [reading_of_exit (hr [])]
  exact hr c.trail

theorem pure (a : α) : Steady (Pure.pure a : Walk α) := fun _ => rfl

theorem kind : Steady Walk.kind := fun _ => rfl

theorem text : Steady Walk.text := fun _ => rfl

theorem span : Steady Walk.span := fun _ => rfl

theorem fail (e : ParseError) (s : Span) : Steady (Walk.fail e s : Walk α) := fun _ => rfl

theorem unexpected (context : String) : Steady (Walk.unexpected context : Walk α) := fun _ => rfl

theorem reading_bind (hw : Steady w) (source : String) (n : Node) :
    (w >>= f).reading source n = w.reading source n >>= fun a => (f a).reading source n := by
  have hc := hw ⟨source, [], n⟩
  cases hr : w.reading source n with
  | ok a =>
    rw [hr] at hc
    simp only [reading, bind_of_ok hc, ok_bind]
  | error e =>
    rw [hr] at hc
    simp only [reading, bind_of_error hc, error_bind]

theorem bind (hw : Steady w) (hf : ∀ a, Steady (f a)) : Steady (w >>= f) := by
  intro c
  have hc := hw c
  rw [hw.reading_bind]
  cases hr : w.reading c.source c.focus with
  | ok a =>
    rw [hr] at hc
    rw [bind_of_ok hc]
    exact hf a c
  | error e =>
    rw [hr] at hc
    exact bind_of_error hc

theorem map {g : α → β} (hw : Steady w) : Steady (g <$> w) := hw.bind fun a => pure (g a)

/-- What is done next may depend on the node. -/
theorem get_bind {g : Cursor → Walk β} (hg : ∀ c, Steady (g c))
    (hfocus : ∀ c d, c.focus = d.focus → g c = g d) : Steady ((get : Walk Cursor) >>= g) := by
  apply of_exists
  intro source focus
  refine ⟨(g ⟨source, [], focus⟩).reading source focus, fun trail => ?_⟩
  rw [← hfocus ⟨source, trail, focus⟩ ⟨source, [], focus⟩ rfl]
  exact hg ⟨source, trail, focus⟩ ⟨source, trail, focus⟩

theorem sideways (hw : Steady w) : Sideways w := fun source above i focus =>
  ⟨w.reading source focus, i, focus, fun trail => hw ⟨source, (above, i) :: trail, focus⟩⟩

theorem ite {p : Prop} [Decidable p] {v : Walk α} (hw : Steady w) (hv : Steady v) :
    Steady (if p then w else v) := by
  split
  · exact hw
  · exact hv

end Steady

namespace Sideways

theorem bind (hw : Sideways w) (hf : ∀ a, Sideways (f a)) : Sideways (w >>= f) := by
  intro source above i focus
  obtain ⟨r, j, focus₁, h⟩ := hw source above i focus
  cases r with
  | error e => exact ⟨.error e, j, focus₁, fun trail => bind_of_error (h trail)⟩
  | ok a =>
    obtain ⟨r, k, focus₂, h'⟩ := hf a source above j focus₁
    exact ⟨r, k, focus₂, fun trail => (bind_of_ok (h trail)).trans (h' trail)⟩

theorem get_bind {g : Cursor → Walk β} (hg : ∀ c, Sideways (g c))
    (hfocus : ∀ c d, c.focus = d.focus → g c = g d) : Sideways ((get : Walk Cursor) >>= g) := by
  intro source above i focus
  obtain ⟨r, j, focus', h⟩ := hg ⟨source, [], focus⟩ source above i focus
  refine ⟨r, j, focus', fun trail => ?_⟩
  rw [← h, ← hfocus ⟨source, (above, i) :: trail, focus⟩ ⟨source, [], focus⟩ rfl]
  rfl

theorem ite {p : Prop} [Decidable p] {v : Walk α} (hw : Sideways w) (hv : Sideways v) :
    Sideways (if p then w else v) := by
  split
  · exact hw
  · exact hv

/-- Seeking moves to a later child of the same node. -/
theorem seek (n : Nat) (source : String) (above : Node) (i : Nat) (focus : Node) :
    ∃ found j focus', ∀ trail, Cursor.seek n ⟨source, (above, i) :: trail, focus⟩ =
      (found, ⟨source, (above, j) :: trail, focus'⟩) := by
  induction n generalizing i focus with
  | zero => exact ⟨false, i, focus, fun _ => rfl⟩
  | succ n ih =>
    cases hn : above.children[i + 1]? with
    | none =>
      refine ⟨false, i, focus, fun trail => ?_⟩
      simp [Cursor.seek, Cursor.nextSibling?, hn]
    | some m =>
      by_cases hm : m.isTrivia = true
      · obtain ⟨found, j, focus', h⟩ := ih (i + 1) m
        refine ⟨found, j, focus', fun trail => ?_⟩
        simp [Cursor.seek, Cursor.nextSibling?, hn, hm, h]
      · refine ⟨true, i + 1, m, fun trail => ?_⟩
        simp [Cursor.seek, Cursor.nextSibling?, hn, hm]

theorem tryAdvance : Sideways Walk.tryAdvance := by
  intro source above i focus
  obtain ⟨found, j, focus', h⟩ := seek (above.children.length - (i + 1)) source above i focus
  refine ⟨.ok found, j, focus', fun trail => ?_⟩
  simp only [Walk.tryAdvance, Cursor.nextMeaningful, Cursor.following, h, exit]

theorem advance (context expected : String) : Sideways (Walk.advance context expected) :=
  tryAdvance.bind fun _ => ite (Steady.pure ()).sideways
    (Steady.span.bind fun s => .fail _ s).sideways

/-- A walk among the children of a node is a walk on the node. -/
theorem within (hw : Sideways w) (context : String) : Steady (Walk.within context w) := by
  apply Steady.of_exists
  intro source n
  cases hc : n.children.head? with
  | none =>
    refine ⟨.error ⟨.missingNode context "child node", n.span source⟩, fun trail => ?_⟩
    simp only [Walk.within, Cursor.firstChild?, hc, Option.map_none]
    rfl
  | some m =>
    obtain ⟨r, j, focus, h⟩ := hw source n 0 m
    refine ⟨r, fun trail => ?_⟩
    simp only [Walk.within, Cursor.firstChild?, hc, Option.map_some, h, leave_exit]

end Sideways

end

section

variable {f : β → Walk β}

/-- What a fold does on one node before it goes on. -/
def visit (f : β → Walk β) (b : β) (n : Node) : Walk β := if n.isTrivia then pure b else f b

theorem visit_steady (hf : ∀ b, Steady (f b)) (b : β) (n : Node) : Steady (visit f b n) :=
  .ite (.pure b) (hf b)

def foldOn (f : β → Walk β) (n : Nat) (b : β) : Walk β := do
  match (← get).nextSibling? with
  | none => pure b
  | some c => do set c; foldFrom f n b

theorem get_bind (g : Cursor → Walk α) (c : Cursor) : ((get : Walk Cursor) >>= g) c = g c c := rfl

theorem foldOn_of_none {n : Nat} {b : β} {c : Cursor} (h : c.nextSibling? = none) :
    foldOn f n b c = .ok b c := by
  rw [foldOn, get_bind, h]
  rfl

theorem foldOn_of_some {n : Nat} {b : β} {c d : Cursor} (h : c.nextSibling? = some d) :
    foldOn f n b c = foldFrom f n b d := by
  rw [foldOn, get_bind, h]
  rfl

theorem foldFrom_succ (n : Nat) (b : β) (c : Cursor) :
    foldFrom f (n + 1) b c = (visit f b c.focus >>= foldOn f n) c := by
  rw [foldFrom, get_bind, visit]
  by_cases h : c.focus.isTrivia = true
  · simp only [h, if_true]
    rfl
  · simp only [h]
    rfl

theorem foldlM_visit (b : β) (source : String) (n : Node) (ns : List Node) :
    (Node.meaningful (n :: ns)).foldlM (fun b m => (f b).reading source m) b =
      (visit f b n).reading source n >>= fun b =>
        (Node.meaningful ns).foldlM (fun b m => (f b).reading source m) b := by
  by_cases h : n.isTrivia = true
  · simp only [visit, h, if_true, Node.meaningful_of_isTrivia]
    rfl
  · simp only [visit, h, Node.meaningful_of_not_isTrivia h, List.foldlM_cons]
    rfl

/-- A fold from some child on sees the nodes from there to the last child. -/
theorem foldFrom_exit (hf : ∀ b, Steady (f b)) (source : String) (above : Node)
    (rest : List Node) (n : Nat) (b : β) (i : Nat) (focus : Node)
    (hi : above.children.drop i = focus :: rest) (hn : rest.length < n) :
    ∃ j focus', ∀ trail, foldFrom f n b ⟨source, (above, i) :: trail, focus⟩ =
      exit ⟨source, (above, j) :: trail, focus'⟩
        ((Node.meaningful (focus :: rest)).foldlM (fun b m => (f b).reading source m) b) := by
  obtain ⟨n, rfl⟩ : ∃ k, n = k + 1 := ⟨n - 1, by omega⟩
  have hnext : above.children[i + 1]? = rest[0]? := by
    rw [← List.getElem?_drop, hi]
    rfl
  -- The visit comes back to the node, so what is left is the fold over the siblings behind it.
  have hvisit := fun trail => visit_steady hf b focus ⟨source, (above, i) :: trail, focus⟩
  simp only [foldFrom_succ, foldlM_visit]
  cases hr : (visit f b focus).reading source focus with
  | error e =>
    refine ⟨i, focus, fun trail => bind_of_error ?_⟩
    rw [hvisit, hr]
    rfl
  | ok b' =>
    have hgo : ∀ trail, (visit f b focus >>= foldOn f n) ⟨source, (above, i) :: trail, focus⟩ =
        foldOn f n b' ⟨source, (above, i) :: trail, focus⟩ := by
      intro trail
      apply bind_of_ok
      rw [hvisit, hr]
      rfl
    simp only [hgo, ok_bind]
    cases rest with
    | nil =>
      refine ⟨i, focus, fun trail => foldOn_of_none ?_⟩
      simp [Cursor.nextSibling?, hnext]
    | cons m rest =>
      obtain ⟨j, focus', h⟩ := foldFrom_exit hf source above rest n b' (i + 1) m
        (by rw [← List.drop_drop, hi]; rfl) (by simpa using hn)
      refine ⟨j, focus', fun trail => (foldOn_of_some ?_).trans (h trail)⟩
      simp [Cursor.nextSibling?, hnext]

theorem fold_exit (hf : ∀ b, Steady (f b)) (b : β) (c : Cursor) :
    fold f b c = exit c
      ((Node.meaningful c.focus.children).foldlM (fun b m => (f b).reading c.source m) b) := by
  obtain ⟨source, trail, n⟩ := c
  cases hc : n.children with
  | nil =>
    simp [fold, Cursor.firstChild?, hc, Node.meaningful, exit]
  | cons m ms =>
    obtain ⟨j, focus, h⟩ := foldFrom_exit hf source n ms n.children.length b 0 m hc
      (by simp [hc])
    simp only [fold, Cursor.firstChild?, hc, List.head?_cons, Option.map_some]
    rw [← hc, h trail, leave_exit, ← hc]

/-- A fold reads the children that are no trivia, one after the other. -/
theorem reading_fold (hf : ∀ b, Steady (f b)) (b : β) (source : String) (n : Node) :
    (fold f b).reading source n =
      (Node.meaningful n.children).foldlM (fun b m => (f b).reading source m) b :=
  reading_of_exit (fold_exit hf b ⟨source, [], n⟩)

theorem Steady.fold (hf : ∀ b, Steady (f b)) (b : β) : Steady (Walk.fold f b) := by
  intro c
  rw [fold_exit hf, reading_fold hf]

theorem Steady.collect {w : Walk (Option α)} (hw : Steady w) : Steady (Walk.collect w) :=
  (Steady.fold (fun _ => hw.bind fun _ => .pure _) []).bind fun _ => .pure _

end

theorem Steady.expect (kind context : String) : Steady (Walk.expect kind context) :=
  Steady.kind.bind fun _ => .ite (.pure ()) (.unexpected context)

theorem Steady.note : Steady Walk.note := Steady.span.bind fun _ => .pure _

section

variable {e : Walk Expr}

theorem number_steady : Steady number := by
  refine Steady.note.bind fun note => Steady.text.bind fun text => ?_
  split
  · exact .pure _
  · exact Steady.text.bind fun _ => .fail _ _

theorem boolean_steady : Steady boolean := by
  refine Steady.note.bind fun note => Steady.text.bind fun text => ?_
  split
  · exact .pure _
  · exact .pure _
  · exact .unexpected _

theorem unary_steady (he : Steady e) : Steady (unary e) := by
  refine Steady.note.bind fun note => Sideways.within ?_ _
  refine Steady.text.sideways.bind fun symbol => ?_
  split
  · exact (Steady.span.bind fun _ => .fail _ _).sideways
  · exact (Sideways.advance _ _).bind fun _ => (he.bind fun _ => .pure _).sideways

theorem binary_steady (he : Steady e) : Steady (binary e) := by
  refine Steady.note.bind fun note => Sideways.within ?_ _
  refine he.sideways.bind fun left => (Sideways.advance _ _).bind fun _ => ?_
  refine Steady.span.sideways.bind fun opSpan => Steady.text.sideways.bind fun symbol => ?_
  refine (Sideways.advance _ _).bind fun _ => Steady.sideways (Steady.kind.bind fun kind => ?_)
  refine .ite (Steady.text.bind fun _ => .fail _ _) ?_
  split
  · exact .fail _ _
  · exact he.bind fun _ => .pure _

theorem parenthesized_steady (he : Steady e) : Steady (parenthesized e) :=
  Sideways.within ((Steady.expect _ _).sideways.bind fun _ =>
    (Sideways.advance _ _).bind fun _ => he.sideways) _

theorem arguments_steady (he : Steady e) : Steady (arguments e) :=
  (Steady.expect _ _).bind fun _ => Steady.collect (Steady.kind.bind fun _ =>
    .ite (.pure _) (he.bind fun _ => .pure _))

theorem member_steady (he : Steady e) : Steady (member e) := by
  refine Sideways.within ?_ _
  refine he.sideways.bind fun object => (Sideways.advance _ _).bind fun _ => ?_
  refine (Steady.expect _ _).sideways.bind fun _ => (Sideways.advance _ _).bind fun _ => ?_
  exact ((Steady.expect _ _).bind fun _ => Steady.text.bind fun _ => .pure _).sideways

theorem call_steady (he : Steady e) : Steady (call e) := by
  refine Steady.note.bind fun note => Sideways.within ?_ _
  refine Steady.kind.sideways.bind fun kind => ?_
  split
  · refine Steady.text.sideways.bind fun name => (Sideways.advance _ _).bind fun _ => ?_
    refine Steady.sideways ((arguments_steady he).bind fun args => ?_)
    split
    · exact .pure _
    · exact .fail _ _
  · refine (member_steady he).sideways.bind fun found => (Sideways.advance _ _).bind fun _ => ?_
    exact ((arguments_steady he).bind fun _ => .pure _).sideways
  · exact (Steady.unexpected _).sideways

end

theorem expr_steady (n : Nat) : Steady (expr n) := by
  induction n with
  | zero => exact .unexpected _
  | succ n ih =>
    refine Steady.kind.bind fun kind => ?_
    split
    · exact number_steady
    · exact boolean_steady
    · exact Steady.note.bind fun _ => .pure _
    · exact Steady.note.bind fun _ => Steady.text.bind fun _ => .pure _
    · exact unary_steady ih
    · exact binary_steady ih
    · exact parenthesized_steady ih
    · exact call_steady ih
    · exact Steady.note.bind fun _ => (member_steady ih).bind fun _ => .pure _
    · exact .unexpected _

theorem typeName_sideways (n : Nat) : Sideways (typeName n) := by
  induction n with
  | zero => exact (Steady.unexpected _).sideways
  | succ n ih =>
    refine Steady.kind.sideways.bind fun kind => .get_bind (fun c => ?_) (by intro c d h; rw [h])
    refine .ite ((Sideways.advance _ _).bind fun _ => ih) ?_
    refine Steady.sideways (Steady.kind.bind fun kind => ?_)
    exact .ite (Steady.text.bind fun _ => .pure _) (.unexpected _)

theorem typeDef_steady : Steady typeDef :=
  .get_bind (fun _ => (typeName_sideways _).within _) (by intro c d h; rw [h])

theorem paramEntry_steady (className : Option String) (entries : List ParamEntry) :
    Steady (paramEntry className entries) := by
  refine Steady.kind.bind fun kind => ?_
  split
  · exact .pure _
  · exact .pure _
  · exact .pure _
  · exact Steady.text.bind fun _ => Steady.span.bind fun _ => .pure _
  · refine typeDef_steady.bind fun ty => ?_
    split
    · exact .pure _
    · exact .unexpected _
  · exact .unexpected _

theorem params_steady (className : Option String) : Steady (params className) := by
  refine (Steady.fold (paramEntry_steady className) []).bind fun entries => ?_
  dsimp only
  split
  · exact .fail _ _
  · exact .pure _

section

variable {s : Walk Stmt} {e : Walk Expr}

theorem body_steady (hs : Steady s) : Steady (body s) :=
  Steady.collect (Steady.kind.bind fun _ => .ite (.pure _) (hs.bind fun _ => .pure _))

theorem funcDef_steady (hs : Steady s) (className : Option String) :
    Steady (funcDef s className) := by
  refine Steady.span.bind fun span => Sideways.within ?_ _
  refine (Steady.expect _ _).sideways.bind fun _ => (Sideways.advance _ _).bind fun _ => ?_
  refine (Steady.expect _ _).sideways.bind fun _ => Steady.text.sideways.bind fun name => ?_
  refine (Sideways.advance _ _).bind fun _ => (Steady.expect _ _).sideways.bind fun _ => ?_
  refine (params_steady className).sideways.bind fun params => ?_
  refine (Sideways.advance _ _).bind fun _ => Steady.kind.sideways.bind fun kind => ?_
  extract_lets rest
  have hrest : ∀ ret, Sideways (rest ret) := fun ret =>
    ((Steady.expect _ _).bind fun _ => (body_steady hs).bind fun _ => .pure _).sideways
  refine .ite ?_ ((Steady.pure _).sideways.bind hrest)
  refine typeDef_steady.sideways.bind fun ret => (Sideways.advance _ _).bind fun _ => ?_
  exact (Steady.pure _).sideways.bind hrest

theorem assignment_steady (he : Steady e) : Steady (assignment e) := by
  refine Steady.span.bind fun span => Sideways.within ?_ _
  refine Steady.kind.sideways.bind fun kind => ?_
  extract_lets afterTarget
  have htarget : ∀ target, Sideways (afterTarget target) := by
    intro target
    refine (Sideways.advance _ _).bind fun _ => Steady.kind.sideways.bind fun kind => ?_
    extract_lets afterType
    have htype : ∀ ty, Sideways (afterType ty) := by
      intro ty
      refine Steady.kind.sideways.bind fun kind => ?_
      extract_lets value
      have hvalue : ∀ u, Sideways (value u) := fun _ =>
        he.sideways.bind fun _ => Sideways.tryAdvance.bind fun _ =>
          .ite (Steady.span.bind fun _ => .fail _ _).sideways (Steady.pure _).sideways
      exact .ite ((Sideways.advance _ _).bind hvalue) (hvalue ())
    refine .ite ?_ ((Steady.pure _).sideways.bind htype)
    refine typeDef_steady.sideways.bind fun ty => (Sideways.advance _ _).bind fun _ => ?_
    exact (Steady.pure _).sideways.bind htype
  split
  · exact Steady.text.sideways.bind fun _ => (Steady.pure _).sideways.bind htarget
  · exact (member_steady he).sideways.bind fun _ => (Steady.pure _).sideways.bind htarget
  · exact (Steady.unexpected _).sideways.bind htarget

theorem baseClass_steady : Steady baseClass := by
  refine Steady.kind.bind fun kind => ?_
  refine .ite (.pure _) (Steady.text.bind fun name => Steady.kind.bind fun kind => ?_)
  exact .ite (.pure _) (Steady.span.bind fun _ => .fail _ _)

theorem classMember_steady (hs : Steady s) (he : Steady e) (className : String) :
    Steady (classMember s e className) := by
  refine Steady.kind.bind fun kind => ?_
  split
  · exact .pure _
  · exact .pure _
  · exact (funcDef_steady hs _).bind fun _ => .pure _
  · refine (assignment_steady he).bind fun a => ?_
    split
    · exact .pure _
    · exact .fail _ _
  · exact .unexpected _

theorem classDef_steady (hs : Steady s) (he : Steady e) : Steady (classDef s e) := by
  refine Steady.span.bind fun span => Sideways.within ?_ _
  refine (Steady.expect _ _).sideways.bind fun _ => (Sideways.advance _ _).bind fun _ => ?_
  refine (Steady.expect _ _).sideways.bind fun _ => Steady.text.sideways.bind fun name => ?_
  refine (Sideways.advance _ _).bind fun _ => Steady.kind.sideways.bind fun kind => ?_
  extract_lets members
  have hmembers : ∀ u, Sideways (members u) := by
    intro _
    refine Steady.sideways ((Steady.expect _ _).bind fun _ => ?_)
    exact (Steady.collect (classMember_steady hs he name)).bind fun _ => .pure _
  refine .ite ?_ (hmembers ())
  refine (Steady.fold (fun _ => baseClass_steady) ()).sideways.bind fun _ => ?_
  exact (Sideways.advance _ _).bind hmembers

theorem arms_sideways (hs : Steady s) (he : Steady e) (n : Nat)
    (elseIf : Option (Expr × List Stmt)) (otherwise : Option (List Stmt)) :
    Sideways (arms s e n elseIf otherwise) := by
  induction n generalizing elseIf otherwise with
  | zero => exact (Steady.pure _).sideways
  | succ n ih =>
    refine Sideways.tryAdvance.bind fun found => .ite ?_ (Steady.pure _).sideways
    refine Steady.kind.sideways.bind fun kind => ?_
    split
    · refine .ite (Steady.span.bind fun _ => .fail _ _).sideways ?_
      refine (Sideways.advance _ _).bind fun _ => he.sideways.bind fun condition => ?_
      refine (Sideways.advance _ _).bind fun _ => (Steady.expect _ _).sideways.bind fun _ => ?_
      exact (body_steady hs).sideways.bind fun body => ih _ _
    · refine .ite (Steady.unexpected _).sideways ?_
      refine (Sideways.advance _ _).bind fun _ => (Steady.expect _ _).sideways.bind fun _ => ?_
      exact (body_steady hs).sideways.bind fun body => ih _ _
    · exact (Steady.unexpected _).sideways

theorem branch_steady (hs : Steady s) (he : Steady e) : Steady (branch s e) := by
  refine Steady.span.bind fun span => .get_bind (fun c => Sideways.within ?_ _)
    (by intro c d h; rw [h])
  refine (Steady.expect _ _).sideways.bind fun _ => (Sideways.advance _ _).bind fun _ => ?_
  refine he.sideways.bind fun condition => (Sideways.advance _ _).bind fun _ => ?_
  refine (Steady.expect _ _).sideways.bind fun _ => (body_steady hs).sideways.bind fun body => ?_
  exact (arms_sideways hs he _ _ _).bind fun _ => (Steady.pure _).sideways

theorem loop_steady (hs : Steady s) (he : Steady e) : Steady (loop s e) := by
  refine Steady.span.bind fun span => Sideways.within ?_ _
  refine (Steady.expect _ _).sideways.bind fun _ => (Sideways.advance _ _).bind fun _ => ?_
  refine he.sideways.bind fun condition => (Sideways.advance _ _).bind fun _ => ?_
  exact ((Steady.expect _ _).bind fun _ => (body_steady hs).bind fun _ => .pure _).sideways

theorem ret_steady (he : Steady e) : Steady (ret e) := by
  refine Steady.note.bind fun note => Sideways.within ?_ _
  refine (Steady.expect _ _).sideways.bind fun _ => Sideways.tryAdvance.bind fun found => ?_
  exact .ite (he.bind fun _ => .pure _).sideways (Steady.pure _).sideways

end

theorem stmt_steady (n : Nat) : Steady (stmt n) := by
  induction n with
  | zero => exact .unexpected _
  | succ n ih =>
    refine Steady.kind.bind fun kind => ?_
    split
    · exact (assignment_steady (expr_steady n)).bind fun _ => .pure _
    · exact branch_steady ih (expr_steady n)
    · exact loop_steady ih (expr_steady n)
    · exact Steady.span.bind fun _ => .pure _
    · exact ret_steady (expr_steady n)
    · exact ((expr_steady n).sideways.within _).bind fun _ => .pure _
    · exact (funcDef_steady ih none).bind fun _ => .pure _
    · exact (classDef_steady ih (expr_steady n)).bind fun _ => .pure _
    · exact .unexpected _

theorem scriptItem_steady (n : Nat) : Steady (scriptItem n) := by
  refine Steady.kind.bind fun kind => ?_
  split
  · exact (funcDef_steady (stmt_steady n) none).bind fun _ => .pure _
  · exact (classDef_steady (stmt_steady n) (expr_steady n)).bind fun _ => .pure _
  · exact (assignment_steady (expr_steady n)).bind fun _ => .pure _
  · exact (stmt_steady n).bind fun _ => .pure _

theorem script_steady (n : Nat) : Steady (script n) :=
  Steady.kind.bind fun _ => .ite
    ((Steady.collect (scriptItem_steady n).map).bind fun _ => .pure _) (.unexpected _)

theorem program_steady : Steady program :=
  .get_bind (fun _ => script_steady _) (by intro c d h; rw [h])

end Walk

namespace Cursor

/-- Reading comes down to what the program's walk reads off the node. -/
theorem parse_eq (c : Cursor) : c.parse = (Walk.program.reading c.source c.focus, c) := by
  rw [parse, Walk.program_steady c]
  cases Walk.program.reading c.source c.focus <;> rfl

/-- Wherever moves have led, the program read there is that of the tree under the cursor, or the
fault is the same, and the cursor has not moved. -/
theorem parse_reach (t : Tree) (ms : List Move) :
    (reach t ms).parse = (Program.ofTree ⟨t.source, (reach t ms).focus⟩, reach t ms) := by
  rw [parse_eq, reach_source, Program.ofTree, parse_eq]
  rfl

end Cursor

end TypedScript
