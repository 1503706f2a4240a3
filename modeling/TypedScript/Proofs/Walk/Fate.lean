import TypedScript.Proofs.Walk.Growth

/-! # Walks over a tree and a grown one

Where the walk over the first tree ends well, the other one fails if it meets what was put in, and
finds the same if it does not. There is a rule for each of the steps that walks are made of. -/

namespace TypedScript

/-- Cursors in one text, on nodes with which related lines go on. -/
structure Cursor.Abreast (x : Node) (R : Prop → Node → Node → Prop) (bits : Nat → Prop)
    (more : Prop) (c c' : Cursor) : Prop where
  source : c'.source = c.source
  row : Node.Row x R bits more (c.focus :: Node.meaningful c.rest)
    (c'.focus :: Node.meaningful c'.rest)

/-- A relation of nodes that goes on to their lines. -/
structure Node.Growing (x : Node) (R : Prop → Node → Node → Prop) : Prop where
  grown : ∀ {B n n'}, R B n n' → Node.Grown x R B n n'

/-- Nodes of one kind whose lines are related. -/
def Node.GrownAs (kind : String) (x : Node) (R : Prop → Node → Node → Prop) (B : Prop)
    (n n' : Node) : Prop :=
  n.kind = kind ∧ Node.Grown x R B n n'

namespace Cursor

variable {x : Node} {R : Prop → Node → Node → Prop} {bits : Nat → Prop} {more B : Prop}
  {c c' : Cursor}

theorem like_of_grown (hs : c'.source = c.source) (h : Node.Grown x R B c.focus c'.focus) :
    c.Like c' where
  kind := h.kind
  text := by rw [text, text, hs, h.text]
  span := by rw [span, span, hs, h.span]

theorem Abreast.focus (h : c.Abreast x R bits more c') : R (bits 0) c.focus c'.focus := by
  cases h.row with
  | cons head tail => exact head

theorem Abreast.rest (h : c.Abreast x R bits more c') :
    Node.Row x R (fun j => bits (j + 1)) more (Node.meaningful c.rest)
      (Node.meaningful c'.rest) := by
  cases h.row with
  | cons head tail => exact tail

theorem Abreast.like (h : c.Abreast x R bits more c') (hR : Node.Growing x R) : c.Like c' :=
  like_of_grown h.source (hR.grown h.focus)

theorem Abreast.not_of_outer {kind : String} (h : c.Abreast x R bits more c')
    (hR : Node.Growing x R) (hk : c.kind = kind) (hkind : Node.innerKinds.contains kind = false) :
    ¬ bits 0 := by
  rw [← hk] at hkind
  exact (hR.grown h.focus).not_of_outer hkind

end Cursor

namespace Walk

variable {α β : Type}

/-- Where the first walk ends well, the second one fails if `B` holds, and otherwise it ends well
with the same value. -/
def Fate (B : Prop) (w : Walk α) (c : Cursor) (w' : Walk α) (c' : Cursor) : Prop :=
  ∀ a d, w c = .ok a d → (B → ∀ a' d', w' c' ≠ .ok a' d') ∧ (¬ B → ∃ d', w' c' = .ok a d')

/-- Both walks come back, and related nodes decide how the second one ends. -/
structure Fated (R : Prop → Node → Node → Prop) (w w' : Walk α) : Prop where
  left : Steady w
  right : Steady w'
  fate : ∀ (B : Prop) (c c' : Cursor), c'.source = c.source → R B c.focus c'.focus →
    Fate B w c w' c'

namespace Fate

variable {w w' : Walk α} {f f' : α → Walk β} {c c' : Cursor} {x : Node}
  {R : Prop → Node → Node → Prop} {B B' : Prop} {bits : Nat → Prop} {more : Prop}

theorem congr (h : Fate B w c w' c') (hB : B ↔ B') : Fate B' w c w' c' := by
  rwa [propext hB] at h

theorem of_not (h : Fate False w c w' c') (hB : ¬ B) : Fate B w c w' c' := h.congr (by simp [hB])

theorem or_of_not (hB : ¬ B) (h : Fate B' w c w' c') : Fate (B ∨ B') w c w' c' :=
  h.congr (by simp [hB])

theorem of_error {e : Located ParseError} {d : Cursor} (h : w c = .error e d) :
    Fate B w c w' c' := by
  intro a d' ha
  rw [h] at ha
  cases ha

theorem of_failure (h : ∀ a d, w' c' ≠ .ok a d) (hB : B) : Fate B w c w' c' :=
  fun _ _ _ => ⟨fun _ => h, fun hn => absurd hB hn⟩

theorem pure (a : α) : Fate False (Pure.pure a) c (Pure.pure a) c' := by
  intro b d h
  cases h
  exact ⟨False.elim, fun _ => ⟨c', rfl⟩⟩

theorem fail {e : ParseError} {s : Span} : Fate B (Walk.fail e s : Walk α) c w' c' := of_error rfl

theorem unexpected {context : String} : Fate B (Walk.unexpected context : Walk α) c w' c' :=
  of_error rfl

theorem bind_of_ok {a : α} {d d' : Cursor} (h : w c = .ok a d) (h' : w' c' = .ok a d')
    (hf : Fate B (f a) d (f' a) d') : Fate B (w >>= f) c (w' >>= f') c' := by
  intro b e hb
  rw [Walk.bind_of_ok h] at hb
  rw [Walk.bind_of_ok h']
  exact hf b e hb

/-- What has failed stays failed, and otherwise the walks that come next decide. -/
theorem bind (hw : Steady w) (hw' : Steady w') (h : Fate B w c w' c')
    (hf : ∀ a, Fate B' (f a) c (f' a) c') : Fate (B ∨ B') (w >>= f) c (w' >>= f') c' := by
  intro b d hb
  obtain ⟨a, c₁, ha, hfa⟩ := bind_eq_ok.mp hb
  obtain rfl := hw.eq_of_ok ha
  obtain ⟨hfails, hsame⟩ := h a _ ha
  by_cases hB : B
  · refine ⟨fun _ b' d' hb' => ?_, fun hn => absurd (.inl hB) hn⟩
    obtain ⟨a', c₂, ha', -⟩ := bind_eq_ok.mp hb'
    exact hfails hB a' c₂ ha'
  · obtain ⟨c₂, ha'⟩ := hsame hB
    obtain rfl := hw'.eq_of_ok ha'
    rw [Walk.bind_of_ok ha']
    obtain ⟨hfails', hsame'⟩ := hf a b d hfa
    exact ⟨fun hor => hfails' (hor.resolve_left hB), fun hn => hsame' fun hB' => hn (.inr hB')⟩

/-- What follows may end alike wherever it starts. -/
theorem bind_of_forall (h : Fate B w c w' c')
    (hf : ∀ a d d', Fate False (f a) d (f' a) d') : Fate B (w >>= f) c (w' >>= f') c' := by
  intro b d hb
  obtain ⟨a, c₁, ha, hfa⟩ := bind_eq_ok.mp hb
  obtain ⟨hfails, hsame⟩ := h a c₁ ha
  refine ⟨fun hB b' d' hb' => ?_, fun hB => ?_⟩
  · obtain ⟨a', c₂, ha', -⟩ := bind_eq_ok.mp hb'
    exact hfails hB a' c₂ ha'
  · obtain ⟨c₂, ha'⟩ := hsame hB
    rw [Walk.bind_of_ok ha']
    exact (hf a c₁ c₂ b d hfa).2 fun h => h

theorem get_bind {f f' : Cursor → Walk β} (h : Fate B (f c) c (f' c') c') :
    Fate B (get >>= f) c (get >>= f') c' := h

theorem kind_bind {f f' : String → Walk β} (hl : c.Like c')
    (h : Fate B (f c.kind) c (f' c.kind) c') : Fate B (Walk.kind >>= f) c (Walk.kind >>= f') c' :=
  bind_of_ok (a := c.kind) rfl (by rw [← hl.kind]; rfl) h

theorem text_bind {f f' : String → Walk β} (hl : c.Like c')
    (h : Fate B (f c.text) c (f' c.text) c') : Fate B (Walk.text >>= f) c (Walk.text >>= f') c' :=
  bind_of_ok (a := c.text) rfl (by rw [← hl.text]; rfl) h

theorem span_bind {f f' : Span → Walk β} (hl : c.Like c')
    (h : Fate B (f c.span) c (f' c.span) c') : Fate B (Walk.span >>= f) c (Walk.span >>= f') c' :=
  bind_of_ok (a := c.span) rfl (by rw [← hl.span]; rfl) h

theorem note_bind {f f' : Note → Walk β} (hl : c.Like c')
    (h : Fate B (f ⟨c.span, none⟩) c (f' ⟨c.span, none⟩) c') :
    Fate B (Walk.note >>= f) c (Walk.note >>= f') c' :=
  bind_of_ok (a := ⟨c.span, none⟩) rfl (by rw [← hl.span]; rfl) h

theorem ite {p : Prop} [Decidable p] {v v' : Walk α} (hw : p → Fate B w c w' c')
    (hv : ¬ p → Fate B v c v' c') : Fate B (if p then w else v) c (if p then w' else v') c' := by
  by_cases hp : p
  · simpa only [if_pos hp] using hw hp
  · simpa only [if_neg hp] using hv hp

theorem expect_bind {kind context : String} {f f' : Unit → Walk β} (hl : c.Like c')
    (h : c.kind = kind → Fate B (f ()) c (f' ()) c') :
    Fate B (Walk.expect kind context >>= f) c (Walk.expect kind context >>= f') c' := by
  by_cases hk : c.kind = kind
  · exact bind_of_ok (expect_of_eq hk) (expect_of_eq (hl.kind.trans hk)) (h hk)
  · obtain ⟨e, he⟩ := expect_of_ne context hk
    exact of_error (bind_of_error he)

section

variable (hc : c.Abreast x R bits more c')
include hc

/-- Where the first line goes on, both walks go on to the next place. At its end the second one may
meet the node that was put in. -/
theorem tryAdvance_bind {f f' : Bool → Walk β}
    (hnext : ∀ d d' : Cursor, d.Abreast x R (fun j => bits (j + 1)) more d' →
      Node.meaningful c.rest = d.focus :: Node.meaningful d.rest → d.rest.length < c.rest.length →
      d'.rest.length < c'.rest.length → Fate B (f true) d (f' true) d')
    (hdone : Node.meaningful c.rest = [] → (∀ j, ¬ bits (j + 1)) → ¬ more →
      ∀ d d', Fate B (f false) d (f' false) d')
    (hextra : Node.meaningful c.rest = [] → (∀ j, ¬ bits (j + 1)) → more →
      ∀ d d' : Cursor, d'.focus = x → Fate B (f false) d (f' true) d') :
    Fate B (Walk.tryAdvance >>= f) c (Walk.tryAdvance >>= f') c' := by
  have hrow := hc.rest
  generalize hL : Node.meaningful c.rest = L at hrow
  generalize hL' : Node.meaningful c'.rest = L' at hrow
  cases hrow with
  | done hbits hmore =>
    exact bind_of_ok (tryAdvance_of_none (Node.next?_of_nil hL))
      (tryAdvance_of_none (Node.next?_of_nil hL')) (hdone hL hbits hmore _ _)
  | extra hbits hmore =>
    obtain ⟨rest', hn', -⟩ := Node.next?_of_cons hL'
    obtain ⟨d', hd', -, hfocus', -⟩ := tryAdvance_of_some hn'
    have hd := tryAdvance_of_none (Node.next?_of_nil hL)
    intro a e ha
    rw [Walk.bind_of_ok hd] at ha
    rw [Walk.bind_of_ok hd']
    exact hextra hL hbits hmore _ d' hfocus' a e ha
  | cons head tail =>
    obtain ⟨rest, hn, hms⟩ := Node.next?_of_cons hL
    obtain ⟨rest', hn', hms'⟩ := Node.next?_of_cons hL'
    obtain ⟨d, hd, hs, hfocus, hrest⟩ := tryAdvance_of_some hn
    obtain ⟨d', hd', hs', hfocus', hrest'⟩ := tryAdvance_of_some hn'
    refine bind_of_ok hd hd' (hnext d d' ⟨?_, ?_⟩ ?_ ?_ ?_)
    · rw [hs, hs', hc.source]
    · rw [hfocus, hfocus', hrest, hrest', hms, hms']
      exact .cons head tail
    · rw [hL, hfocus, hrest, hms]
    · rw [hrest]
      exact Node.length_of_next? hn
    · rw [hrest']
      exact Node.length_of_next? hn'

theorem advance_bind {context expected : String} {f f' : Unit → Walk β}
    (h : ∀ d d' : Cursor, d.Abreast x R (fun j => bits (j + 1)) more d' →
      Node.meaningful c.rest = d.focus :: Node.meaningful d.rest → d.rest.length < c.rest.length →
      d'.rest.length < c'.rest.length → Fate B (f ()) d (f' ()) d') :
    Fate B (Walk.advance context expected >>= f) c (Walk.advance context expected >>= f') c' := by
  rw [Walk.advance, bind_assoc, bind_assoc]
  refine tryAdvance_bind hc (fun d d' hd hline hl hl' => ?_) (fun _ _ _ d d' => ?_)
    fun _ _ _ d d' _ => ?_
  · exact bind_of_ok (a := ()) rfl rfl (h d d' hd hline hl hl')
  · exact of_error rfl
  · exact of_error rfl

end

/-- Among the children of related nodes, walks start on cursors at the beginning of their lines. -/
theorem within {context : String} (hs : c'.source = c.source)
    (hn : Node.Grown x R B c.focus c'.focus) (hk : c.focus.kind ∉ Node.looseKinds)
    (hw : ∀ (bits : Nat → Prop) (more : Prop) (d d' : Cursor), d.Abreast x R bits more d' →
      Node.line c.focus.kind c.focus.children = d.focus :: Node.meaningful d.rest →
      d.rest.length < c.focus.children.length → d'.rest.length < c'.focus.children.length →
      (B ↔ (∃ j, c.focus.looksAt j = true ∧ bits j) ∨ (more ∧ c.focus.closes = true)) →
      Fate B w d w' d') :
    Fate B (Walk.within context w) c (Walk.within context w') c' := by
  obtain ⟨-, -, -, bits, more, hrow, hB⟩ := hn
  cases hm : c.focus.children with
  | nil => exact of_error (within_of_nil hm)
  | cons m ms =>
    cases hm' : c'.focus.children with
    | nil =>
      rw [Node.line, Node.line, if_neg hk, if_neg hk, hm, hm'] at hrow
      cases hrow
    | cons m' ms' =>
      have hline : Node.line c.focus.kind (m :: ms) = m :: Node.meaningful ms := by
        rw [Node.line, if_neg hk]
        rfl
      have hline' : Node.line c.focus.kind (m' :: ms') = m' :: Node.meaningful ms' := by
        rw [Node.line, if_neg hk]
        rfl
      rw [hm, hm', hline, hline'] at hrow
      intro a d ha
      obtain ⟨d₁, hd₁⟩ := (within_eq_ok hm).mp ⟨d, ha⟩
      have hrest : (⟨c.source, (c.focus, 0) :: c.trail, m⟩ : Cursor).rest = ms := by
        simp [Cursor.rest, hm]
      have hrest' : (⟨c'.source, (c'.focus, 0) :: c'.trail, m'⟩ : Cursor).rest = ms' := by
        simp [Cursor.rest, hm']
      obtain ⟨hfails, hsame⟩ := hw bits more ⟨c.source, (c.focus, 0) :: c.trail, m⟩
        ⟨c'.source, (c'.focus, 0) :: c'.trail, m'⟩ ⟨hs, by rw [hrest, hrest']; exact hrow⟩
        (by rw [hrest, hm, hline]) (by simp [hrest, hm]) (by simp [hrest', hm']) hB a d₁ hd₁
      refine ⟨fun hb a' d' ha' => ?_, fun hb => (within_eq_ok hm').mpr (hsame hb)⟩
      obtain ⟨d₂, hd₂⟩ := (within_eq_ok hm').mp ⟨d', ha'⟩
      exact hfails hb a' d₂ hd₂

end Fate

/-! ## Folds -/

/-- A walk that does not end well on a node. -/
def Refuses (x : Node) (w : Walk α) : Prop := ∀ c : Cursor, c.focus = x → ∀ a d, w c ≠ .ok a d

section

variable {x : Node} {R : Prop → Node → Node → Prop} {B : Prop} {bits : Nat → Prop} {more : Prop}
  {c c' : Cursor}

/-- A walk that reads a whole line fails on the second one just if something is met in it. -/
theorem foldlM_row {g g' : β → Walk β} (hg : ∀ b, Fated R (g b) (g' b))
    (hx : ∀ b, Refuses x (g' b)) (source : String) {ns ns' : List Node}
    (h : Node.Row x R bits more ns ns') {b a : β}
    (ha : ns.foldlM (fun b m => (g b).reading source m) b = .ok a) :
    (Node.Somewhere bits more → ∀ a', ns'.foldlM (fun b m => (g' b).reading source m) b ≠ .ok a') ∧
      (¬ Node.Somewhere bits more → ns'.foldlM (fun b m => (g' b).reading source m) b = .ok a) := by
  induction h generalizing b with
  | done hbits hmore =>
    exact ⟨fun hs => absurd hs (Node.not_somewhere hbits hmore), fun _ => ha⟩
  | extra hbits hmore =>
    refine ⟨fun _ a' ha' => ?_, fun hs => absurd (.inr hmore) hs⟩
    obtain ⟨b', hb', -⟩ := TypedScript.bind_eq_ok.mp ha'
    obtain ⟨d, hd⟩ := reading_eq_ok.mp hb'
    exact hx b ⟨source, [], x⟩ rfl b' d hd
  | @cons bits more m m' ms ms' head tail ih =>
    rw [List.foldlM_cons, TypedScript.bind_eq_ok] at ha
    obtain ⟨b', hb, ha⟩ := ha
    obtain ⟨d, hd⟩ := reading_eq_ok.mp hb
    have hfate := (hg b).fate _ ⟨source, [], m⟩ ⟨source, [], m'⟩ rfl head b' d hd
    rw [Node.somewhere_iff]
    simp only [List.foldlM_cons]
    refine ⟨fun hs a' ha' => ?_, fun hs => ?_⟩
    · obtain ⟨b'', hb'', hrest⟩ := TypedScript.bind_eq_ok.mp ha'
      obtain ⟨d'', hd''⟩ := reading_eq_ok.mp hb''
      by_cases h0 : bits 0
      · exact hfate.1 h0 b'' d'' hd''
      · obtain ⟨d', hd'⟩ := hfate.2 h0
        obtain ⟨rfl, -⟩ : b' = b'' ∧ d' = d'' := by simpa using hd'.symm.trans hd''
        exact (ih ha).1 (hs.resolve_left h0) a' hrest
    · obtain ⟨d', hd'⟩ := hfate.2 fun h0 => hs (.inl h0)
      rw [reading_eq_ok.mpr ⟨d', hd'⟩]
      exact (ih ha).2 fun hrest => hs (.inr hrest)

namespace Fate

variable (hs : c'.source = c.source) (hn : Node.Grown x R B c.focus c'.focus)
  (hk : c.focus.kind ∈ ["Script", "Body", "ParamList", "ArgList"])
include hs hn hk

theorem fold {b : β} {g g' : β → Walk β} (hg : ∀ b, Fated R (g b) (g' b))
    (hx : ∀ b, Refuses x (g' b)) : Fate B (Walk.fold g b) c (Walk.fold g' b) c' := by
  obtain ⟨bits, more, hrow, hB⟩ := hn.somewhere (List.mem_append_left _ hk)
  have hloose : c.focus.kind ∈ Node.looseKinds := List.mem_append_left ["TypeDef"] hk
  rw [Node.line, Node.line, if_pos hloose, if_pos hloose] at hrow
  intro a d ha
  rw [fold_exit fun b => (hg b).left] at ha
  rw [fold_exit fun b => (hg b).right, hs]
  obtain ⟨hfails, hsame⟩ := foldlM_row hg hx c.source hrow (exit_eq_ok.mp ⟨d, ha⟩)
  rw [← hB] at hfails hsame
  refine ⟨fun hb a' d' ha' => ?_, fun hb => exit_eq_ok.mpr (hsame hb)⟩
  exact hfails hb a' (exit_eq_ok.mp ⟨d', ha'⟩)

theorem collect {g g' : Walk (Option α)} (hg : Fated R g g') (hx : Refuses x g') :
    Fate B (Walk.collect g) c (Walk.collect g') c' := by
  have hstep : ∀ acc : List α, Fated R (do return (← g).toList ++ acc)
      (do return (← g').toList ++ acc) := fun acc =>
    ⟨hg.left.bind fun _ => .pure _, hg.right.bind fun _ => .pure _, fun B d d' hd hn =>
      bind_of_forall (hg.fate B d d' hd hn) fun _ _ _ => pure _⟩
  refine bind_of_forall (fold hs hn hk hstep fun acc d hd a d' ha => ?_) fun _ _ _ => pure _
  obtain ⟨b, d₁, hb, -⟩ := bind_eq_ok.mp ha
  exact hx d hd b d₁ hb

end Fate

theorem Fated.fate_bind {w w' : Walk α} {f f' : α → Walk β} (hw : Fated R w w')
    (hc : c.Abreast x R bits more c') (hf : ∀ a, Fate B (f a) c (f' a) c') :
    Fate (bits 0 ∨ B) (w >>= f) c (w' >>= f') c' :=
  .bind hw.left hw.right (hw.fate _ c c' hc.source hc.focus) hf

section

variable {w w' : Walk α} {f f' : α → Walk β} {kind : String}
  (hw : Fated (Node.GrownAs kind x R) w w') (hR : Node.Growing x R)
  (hc : c.Abreast x R bits more c') (hk : c.kind = kind)
include hw hR hc hk

theorem Fated.fate_bind_as (hf : ∀ a, Fate B (f a) c (f' a) c') :
    Fate (bits 0 ∨ B) (w >>= f) c (w' >>= f') c' :=
  .bind hw.left hw.right (hw.fate _ c c' hc.source ⟨hk, hR.grown hc.focus⟩) hf

theorem Fated.fate_end_as (hf : ∀ a d d', Fate False (f a) d (f' a) d') :
    Fate (bits 0) (w >>= f) c (w' >>= f') c' :=
  .bind_of_forall (hw.fate _ c c' hc.source ⟨hk, hR.grown hc.focus⟩) hf

end

/-- Both leave out the nodes of the same kinds, in which nothing is met. -/
theorem Fated.unless {w w' : Walk α} (hR : Node.Growing x R) (hw : Fated R w w')
    (p : String → Prop) [DecidablePred p]
    (hp : ∀ kind, p kind → Node.innerKinds.contains kind = false) :
    Fated R (do if p (← kind) then return none else return some (← w))
      (do if p (← kind) then return none else return some (← w')) where
  left := Steady.kind.bind fun _ => .ite (.pure _) (hw.left.bind fun _ => .pure _)
  right := Steady.kind.bind fun _ => .ite (.pure _) (hw.right.bind fun _ => .pure _)
  fate B c c' hs hn := by
    refine .kind_bind (Cursor.like_of_grown hs (hR.grown hn)) (.ite (fun h => ?_) fun _ => ?_)
    · exact .of_not (.pure _) ((hR.grown hn).not_of_outer (hp _ h))
    · exact .bind_of_forall (hw.fate B c c' hs hn) fun _ _ _ => .pure _

theorem Refuses.bind {w : Walk α} {f : α → Walk β} (hw : Refuses x w) : Refuses x (w >>= f) := by
  intro c hc b d hb
  obtain ⟨a, c₁, ha, -⟩ := bind_eq_ok.mp hb
  exact hw c hc a c₁ ha

theorem Refuses.kind_bind {f : String → Walk β} (hf : Refuses x (f x.kind)) :
    Refuses x (kind >>= f) := by
  rintro c rfl
  exact hf c rfl

theorem Refuses.unexpected {context : String} : Refuses x (Walk.unexpected context : Walk α) :=
  fun _ _ _ _ h => nomatch h

theorem Refuses.unless {w : Walk α} (hw : Refuses x w) (p : String → Prop) [DecidablePred p]
    (hp : ¬ p x.kind) : Refuses x (do if p (← kind) then return none else return some (← w)) := by
  apply Refuses.kind_bind
  rw [if_neg hp]
  exact hw.bind

end

end Walk

end TypedScript
