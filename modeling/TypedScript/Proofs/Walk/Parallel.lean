import TypedScript.Proofs.Walk.Locality

/-! # Reading two trees side by side

Two walks agree where they end well with the same values. The rules below carry agreement through
walks over trees whose nodes correspond, with trivia standing between the children of one of them.
-/

namespace TypedScript

namespace Node

/-- Kinds among whose children trivia may stand anywhere. In all other nodes it stands behind the
first child. -/
def looseKinds : List String := ["Script", "Body", "ParamList", "ArgList", "TypeDef"]

/-- The second list is the first one with trivia put in and each node replaced by a related one. -/
inductive Interleaved (R : Node → Node → Prop) : List Node → List Node → Prop
  | nil : Interleaved R [] []
  | cons {n n' ns ns'} (head : R n n') (tail : Interleaved R ns ns') :
      Interleaved R (n :: ns) (n' :: ns')
  | insert {t ns ns'} (trivia : t.isTrivia = true) (tail : Interleaved R ns ns') :
      Interleaved R ns (t :: ns')

structure Above (R : Node → Node → Prop) (n n' : Node) : Prop where
  kind : n'.kind = n.kind
  start : n'.start = n.start
  stop : n'.stop = n.stop
  children : Interleaved R n.children n'.children

/-- Nodes that moreover begin with related children. -/
structure Tight (R : Node → Node → Prop) (n n' : Node) : Prop extends Above R n n' where
  heads : (n.children = [] ∧ n'.children = []) ∨ ∃ m ms m' ms',
    n.children = m :: ms ∧ n'.children = m' :: ms' ∧ R m m' ∧ Interleaved R ms ms'

/-- A relation of nodes that goes on to their children. -/
structure Likeness (R : Node → Node → Prop) : Prop where
  above : ∀ {n n'}, R n n' → Above R n n'
  tight : ∀ {n n'}, R n n' → n.kind ∉ looseKinds → Tight R n n'

variable {R : Node → Node → Prop} {n n' : Node} {ns ns' : List Node}

theorem Above.isTrivia (h : Above R n n') : n'.isTrivia = n.isTrivia := by
  rw [Node.isTrivia, Node.isTrivia, h.kind]

theorem Above.text (h : Above R n n') (source : String) : n'.text source = n.text source := by
  rw [Node.text, Node.text, h.start, h.stop]

theorem Above.span (h : Above R n n') (source : String) : n'.span source = n.span source := by
  rw [Node.span, Node.span, h.start, h.stop]

def next? : List Node → Option (Node × List Node)
  | [] => none
  | n :: ns => if n.isTrivia then next? ns else some (n, ns)

theorem length_of_next? {m : Node} {ms : List Node} (h : next? ns = some (m, ms)) :
    ms.length < ns.length := by
  induction ns with
  | nil => simp [next?] at h
  | cons n ns ih =>
    unfold next? at h
    split at h
    · have := ih h
      simp only [List.length_cons]
      omega
    · cases h
      simp

theorem meaningful_eq (ns : List Node) :
    meaningful ns = (next? ns).elim [] fun found => found.1 :: meaningful found.2 := by
  induction ns with
  | nil => rfl
  | cons n ns ih =>
    by_cases h : n.isTrivia = true
    · rw [meaningful_of_isTrivia h, ih, next?, if_pos h]
    · rw [meaningful_of_not_isTrivia h, next?, if_neg h]
      rfl

theorem next?_of_nil (h : meaningful ns = []) : next? ns = none := by
  rw [meaningful_eq] at h
  cases hn : next? ns with
  | none => rfl
  | some found => simp [hn] at h

theorem next?_of_cons {m : Node} {ms : List Node} (h : meaningful ns = m :: ms) :
    ∃ rest, next? ns = some (m, rest) ∧ meaningful rest = ms := by
  rw [meaningful_eq] at h
  cases hn : next? ns with
  | none => simp [hn] at h
  | some found =>
    obtain ⟨m', rest⟩ := found
    simp only [hn, Option.elim_some, List.cons.injEq] at h
    exact ⟨rest, by rw [h.1], h.2⟩

/-- Related lists go on with related nodes, or not at all. -/
theorem Interleaved.next? (hR : Likeness R) (h : Interleaved R ns ns') :
    (Node.next? ns = none ∧ Node.next? ns' = none) ∨ ∃ m ms m' ms',
      Node.next? ns = some (m, ms) ∧ Node.next? ns' = some (m', ms') ∧ R m m' ∧
        Interleaved R ms ms' := by
  induction h with
  | nil => exact .inl ⟨rfl, rfl⟩
  | @cons n n' ns ns' head tail ih =>
    have ht := (hR.above head).isTrivia
    by_cases hn : n.isTrivia = true
    · simpa only [Node.next?, ht, hn, if_true] using ih
    · right
      refine ⟨n, ns, n', ns', ?_, ?_, head, tail⟩
      · simp [Node.next?, hn]
      · simp [Node.next?, ht, hn]
  | insert trivia tail ih => simpa only [Node.next?, trivia, if_true] using ih

end Node

namespace Cursor

def rest (c : Cursor) : List Node :=
  match c.trail with
  | [] => []
  | (above, i) :: _ => above.children.drop (i + 1)

theorem nextSibling?_of_rest {c : Cursor} {n : Node} {ns : List Node} (h : c.rest = n :: ns) :
    ∃ d, c.nextSibling? = some d ∧ d.source = c.source ∧ d.focus = n ∧ d.rest = ns := by
  obtain ⟨source, trail, focus⟩ := c
  rcases trail with _ | ⟨⟨above, i⟩, trail⟩
  · simp [rest] at h
  · have hd : above.children.drop (i + 1) = n :: ns := h
    have hn : above.children[i + 1]? = some n := by
      rw [← List.head?_drop, hd]
      rfl
    have hns : above.children.drop (i + 1 + 1) = ns := by
      rw [← List.drop_drop, hd]
      rfl
    refine ⟨⟨source, (above, i + 1) :: trail, n⟩, ?_, rfl, rfl, hns⟩
    simp [nextSibling?, hn]

theorem length_rest (c : Cursor) : c.rest.length = c.following := by
  obtain ⟨source, trail, focus⟩ := c
  rcases trail with _ | ⟨⟨above, i⟩, trail⟩
  · rfl
  · simp [rest, following]

/-- Seeking finds the next sibling that is no trivia among those behind the focus. -/
theorem seek_eq {ns : List Node} {c : Cursor} (h : c.rest = ns) :
    match Node.next? ns with
    | none => (c.seek ns.length).1 = false
    | some (n, ms) => ∃ d, c.seek ns.length = (true, d) ∧ d.source = c.source ∧ d.focus = n ∧
        d.rest = ms := by
  induction ns generalizing c with
  | nil => rfl
  | cons n ns ih =>
    obtain ⟨d, hd, hsource, rfl, hrest⟩ := nextSibling?_of_rest h
    by_cases ht : d.focus.isTrivia = true
    · simpa only [Node.next?, List.length_cons, seek, hd, ht, if_true, hsource] using ih hrest
    · simp only [Node.next?, List.length_cons, seek, hd, ht]
      exact ⟨d, rfl, hsource, rfl, hrest⟩

theorem nextMeaningful_of_none {c : Cursor} (h : Node.next? c.rest = none) :
    c.nextMeaningful.1 = false := by
  have hs := seek_eq (c := c) rfl
  rw [h, length_rest] at hs
  exact hs

theorem nextMeaningful_of_some {c : Cursor} {n : Node} {ns : List Node}
    (h : Node.next? c.rest = some (n, ns)) :
    ∃ d, c.nextMeaningful = (true, d) ∧ d.source = c.source ∧ d.focus = n ∧ d.rest = ns := by
  have hs := seek_eq (c := c) rfl
  rw [h, length_rest] at hs
  exact hs

structure Like (c c' : Cursor) : Prop where
  kind : c'.kind = c.kind
  text : c'.text = c.text
  span : c'.span = c.span

theorem like_of_above {R : Node → Node → Prop} {c c' : Cursor} (hs : c'.source = c.source)
    (h : Node.Above R c.focus c'.focus) : c.Like c' where
  kind := h.kind
  text := by rw [text, text, hs, h.text]
  span := by rw [span, span, hs, h.span]

theorem notMem_looseKinds {c : Cursor} {kind : String} (hk : c.kind = kind)
    (h : kind ∉ Node.looseKinds) : c.focus.kind ∉ Node.looseKinds := by
  rw [← hk] at h
  exact h

/-- Cursors in one text on related nodes that related siblings follow. -/
structure Beside (R : Node → Node → Prop) (c c' : Cursor) : Prop where
  source : c'.source = c.source
  focus : R c.focus c'.focus
  rest : Node.Interleaved R c.rest c'.rest

theorem Beside.like {R : Node → Node → Prop} {c c' : Cursor} (hR : Node.Likeness R)
    (h : c.Beside R c') : c.Like c' := like_of_above h.source (hR.above h.focus)

end Cursor

namespace Walk

variable {α β : Type}

/-- The walks end well with the same values. -/
def Agree (w : Walk α) (c : Cursor) (w' : Walk α) (c' : Cursor) : Prop :=
  ∀ a, (∃ d, w c = .ok a d) ↔ ∃ d', w' c' = .ok a d'

/-- Both walks come back, and on related nodes they find the same. -/
structure Parallel (R : Node → Node → Prop) (w w' : Walk α) : Prop where
  left : Steady w
  right : Steady w'
  agree : ∀ c c' : Cursor, c'.source = c.source → R c.focus c'.focus → Agree w c w' c'

theorem Steady.eq_of_ok {w : Walk α} {c d : Cursor} {a : α} (hw : Steady w)
    (h : w c = .ok a d) : d = c := by
  rw [hw c] at h
  cases hr : w.reading c.source c.focus with
  | ok b => rw [hr] at h; cases h; rfl
  | error e => rw [hr] at h; cases h

theorem bind_eq_ok {w : Walk α} {f : α → Walk β} {c d : Cursor} {b : β} :
    (w >>= f) c = .ok b d ↔ ∃ a c₁, w c = .ok a c₁ ∧ f a c₁ = .ok b d := by
  cases h : w c with
  | ok a c₁ => simp [bind_of_ok h]
  | error e c₁ => simp [bind_of_error h]

theorem expect_of_eq {kind context : String} {c : Cursor} (h : c.kind = kind) :
    Walk.expect kind context c = .ok () c := by
  change (if c.kind = kind then pure () else Walk.unexpected context : Walk Unit) c = _
  rw [if_pos h]
  rfl

theorem expect_of_ne {kind : String} (context : String) {c : Cursor} (h : c.kind ≠ kind) :
    ∃ e, Walk.expect kind context c = .error e c := by
  refine ⟨⟨.unexpectedNode context c.kind c.text, c.span⟩, ?_⟩
  change (if c.kind = kind then pure () else Walk.unexpected context : Walk Unit) c = _
  rw [if_neg h]
  rfl

theorem tryAdvance_of_none {c : Cursor} (h : Node.next? c.rest = none) :
    tryAdvance c = .ok false c.nextMeaningful.2 := by
  rw [tryAdvance, c.nextMeaningful_of_none h]

theorem tryAdvance_of_some {c : Cursor} {n : Node} {ns : List Node}
    (h : Node.next? c.rest = some (n, ns)) :
    ∃ d, tryAdvance c = .ok true d ∧ d.source = c.source ∧ d.focus = n ∧ d.rest = ns := by
  obtain ⟨d, hd, hrest⟩ := c.nextMeaningful_of_some h
  exact ⟨d, by rw [tryAdvance, hd], hrest⟩

theorem advance_of_none {context expected : String} {c : Cursor} (h : Node.next? c.rest = none) :
    ∃ e d, Walk.advance context expected c = .error e d := by
  rw [Walk.advance, bind_of_ok (tryAdvance_of_none h)]
  exact ⟨_, _, rfl⟩

theorem advance_of_some {context expected : String} {c : Cursor} {n : Node} {ns : List Node}
    (h : Node.next? c.rest = some (n, ns)) :
    ∃ d, Walk.advance context expected c = .ok () d ∧ d.source = c.source ∧ d.focus = n ∧
      d.rest = ns := by
  obtain ⟨d, hd, hrest⟩ := tryAdvance_of_some h
  refine ⟨d, ?_, hrest⟩
  rw [Walk.advance, bind_of_ok hd]
  rfl

theorem within_of_nil {w : Walk α} {context : String} {c : Cursor} (h : c.focus.children = []) :
    within context w c = .error ⟨.missingNode context "child node", c.span⟩ c := by
  simp [within, Cursor.firstChild?, h]

theorem within_eq_ok {w : Walk α} {context : String} {c : Cursor} {m : Node} {ms : List Node}
    (h : c.focus.children = m :: ms) {a : α} :
    (∃ d, within context w c = .ok a d) ↔
      ∃ d, w ⟨c.source, (c.focus, 0) :: c.trail, m⟩ = .ok a d := by
  simp only [within, Cursor.firstChild?, h, List.head?_cons, Option.map_some]
  cases w ⟨c.source, (c.focus, 0) :: c.trail, m⟩ <;> simp [leave]

theorem exit_eq_ok {c : Cursor} {r : Except (Located ParseError) α} {a : α} :
    (∃ d, exit c r = .ok a d) ↔ r = .ok a := by
  cases r <;> simp [exit]

theorem reading_eq_ok {w : Walk α} {source : String} {n : Node} {a : α} :
    w.reading source n = .ok a ↔ ∃ d, w ⟨source, [], n⟩ = .ok a d := by
  unfold reading
  cases w ⟨source, [], n⟩ <;> simp

theorem Parallel.reading {R : Node → Node → Prop} {w w' : Walk α} (h : Parallel R w w')
    {n n' : Node} (hn : R n n') (source : String) (a : α) :
    w.reading source n = .ok a ↔ w'.reading source n' = .ok a := by
  rw [reading_eq_ok, reading_eq_ok]
  exact h.agree ⟨source, [], n⟩ ⟨source, [], n'⟩ rfl hn a

/-- A fold over related lists ends alike: trivia is left out of both. -/
theorem foldlM_meaningful {R : Node → Node → Prop} (hR : Node.Likeness R) {g g' : β → Walk β}
    (hg : ∀ b, Parallel R (g b) (g' b)) (source : String) {ns ns' : List Node}
    (h : Node.Interleaved R ns ns') (b a : β) :
    (Node.meaningful ns).foldlM (fun b m => (g b).reading source m) b = .ok a ↔
      (Node.meaningful ns').foldlM (fun b m => (g' b).reading source m) b = .ok a := by
  induction h generalizing b with
  | nil => rfl
  | @cons n n' ns ns' head tail ih =>
    have ht := (hR.above head).isTrivia
    by_cases hn : n.isTrivia = true
    · rw [Node.meaningful_of_isTrivia hn, Node.meaningful_of_isTrivia (ht.trans hn)]
      exact ih b
    · rw [Node.meaningful_of_not_isTrivia hn, Node.meaningful_of_not_isTrivia (ht ▸ hn),
        List.foldlM_cons, List.foldlM_cons, TypedScript.bind_eq_ok, TypedScript.bind_eq_ok]
      exact exists_congr fun b' => and_congr ((hg b).reading head source b') (ih b')
  | insert trivia tail ih =>
    rw [Node.meaningful_of_isTrivia trivia]
    exact ih b

namespace Agree

variable {w w' : Walk α} {f f' : α → Walk β} {c c' : Cursor} {R : Node → Node → Prop}

theorem pure (a : α) : Agree (Pure.pure a) c (Pure.pure a) c' := by
  intro b
  constructor
  · rintro ⟨d, h⟩
    cases h
    exact ⟨c', rfl⟩
  · rintro ⟨d, h⟩
    cases h
    exact ⟨c, rfl⟩

theorem of_errors {e e' : Located ParseError} {d d' : Cursor} (h : w c = .error e d)
    (h' : w' c' = .error e' d') : Agree w c w' c' := by
  intro a
  simp [h, h']

theorem fail {e e' : ParseError} {s s' : Span} :
    Agree (Walk.fail e s : Walk α) c (Walk.fail e' s') c' := of_errors rfl rfl

theorem unexpected {context : String} :
    Agree (Walk.unexpected context : Walk α) c (Walk.unexpected context) c' := of_errors rfl rfl

theorem bind_of_ok {a : α} {d d' : Cursor} (h : w c = .ok a d) (h' : w' c' = .ok a d')
    (hf : Agree (f a) d (f' a) d') : Agree (w >>= f) c (w' >>= f') c' := by
  intro b
  rw [Walk.bind_of_ok h, Walk.bind_of_ok h']
  exact hf b

theorem symm (h : Agree w c w' c') : Agree w' c' w c := fun a => (h a).symm

theorem ok_of_bind (hw : Steady w) (hw' : Steady w') (h : Agree w c w' c')
    (hf : ∀ a, Agree (f a) c (f' a) c') {b : β} {d : Cursor} (hb : (w >>= f) c = .ok b d) :
    ∃ d', (w' >>= f') c' = .ok b d' := by
  obtain ⟨a, c₁, ha, hfa⟩ := bind_eq_ok.mp hb
  obtain rfl := hw.eq_of_ok ha
  obtain ⟨d', ha'⟩ := (h a).mp ⟨_, ha⟩
  obtain rfl := hw'.eq_of_ok ha'
  obtain ⟨d', hfa'⟩ := (hf a b).mp ⟨d, hfa⟩
  exact ⟨d', bind_eq_ok.mpr ⟨a, _, ha', hfa'⟩⟩

/-- After walks that come back, the next ones start from the same cursors. -/
theorem bind (hw : Steady w) (hw' : Steady w') (h : Agree w c w' c')
    (hf : ∀ a, Agree (f a) c (f' a) c') : Agree (w >>= f) c (w' >>= f') c' := by
  intro b
  constructor
  · rintro ⟨d, hb⟩
    exact ok_of_bind hw hw' h hf hb
  · rintro ⟨d, hb⟩
    exact ok_of_bind hw' hw h.symm (fun a => (hf a).symm) hb

/-- What follows may end alike wherever it starts. -/
theorem bind_of_forall (h : Agree w c w' c') (hf : ∀ a d d', Agree (f a) d (f' a) d') :
    Agree (w >>= f) c (w' >>= f') c' := by
  intro b
  simp only [bind_eq_ok]
  constructor
  · rintro ⟨d, a, c₁, ha, hb⟩
    obtain ⟨c₁', ha'⟩ := (h a).mp ⟨c₁, ha⟩
    obtain ⟨d', hb'⟩ := (hf a c₁ c₁' b).mp ⟨d, hb⟩
    exact ⟨d', a, c₁', ha', hb'⟩
  · rintro ⟨d', a, c₁', ha', hb'⟩
    obtain ⟨c₁, ha⟩ := (h a).mpr ⟨c₁', ha'⟩
    obtain ⟨d, hb⟩ := (hf a c₁ c₁' b).mpr ⟨d', hb'⟩
    exact ⟨d, a, c₁, ha, hb⟩

theorem get_bind {f f' : Cursor → Walk β} (h : Agree (f c) c (f' c') c') :
    Agree (get >>= f) c (get >>= f') c' := h

theorem kind_bind {f f' : String → Walk β} (hl : c.Like c')
    (h : Agree (f c.kind) c (f' c.kind) c') : Agree (Walk.kind >>= f) c (Walk.kind >>= f') c' :=
  bind_of_ok (a := c.kind) rfl (by rw [← hl.kind]; rfl) h

theorem text_bind {f f' : String → Walk β} (hl : c.Like c')
    (h : Agree (f c.text) c (f' c.text) c') : Agree (Walk.text >>= f) c (Walk.text >>= f') c' :=
  bind_of_ok (a := c.text) rfl (by rw [← hl.text]; rfl) h

theorem span_bind {f f' : Span → Walk β} (hl : c.Like c')
    (h : Agree (f c.span) c (f' c.span) c') : Agree (Walk.span >>= f) c (Walk.span >>= f') c' :=
  bind_of_ok (a := c.span) rfl (by rw [← hl.span]; rfl) h

theorem note_bind {f f' : Note → Walk β} (hl : c.Like c')
    (h : Agree (f ⟨c.span, none⟩) c (f' ⟨c.span, none⟩) c') :
    Agree (Walk.note >>= f) c (Walk.note >>= f') c' :=
  bind_of_ok (a := ⟨c.span, none⟩) rfl (by rw [← hl.span]; rfl) h

theorem ite {p : Prop} [Decidable p] {v v' : Walk α} (hw : p → Agree w c w' c')
    (hv : ¬ p → Agree v c v' c') : Agree (if p then w else v) c (if p then w' else v') c' := by
  by_cases hp : p
  · simpa only [if_pos hp] using hw hp
  · simpa only [if_neg hp] using hv hp

theorem expect_bind {kind context : String} {f f' : Unit → Walk β} (hl : c.Like c')
    (h : c.kind = kind → Agree (f ()) c (f' ()) c') :
    Agree (Walk.expect kind context >>= f) c (Walk.expect kind context >>= f') c' := by
  by_cases hk : c.kind = kind
  · exact bind_of_ok (expect_of_eq hk) (expect_of_eq (hl.kind.trans hk)) (h hk)
  · have hk' : c'.kind ≠ kind := hl.kind ▸ hk
    obtain ⟨e, he⟩ := expect_of_ne context hk
    obtain ⟨e', he'⟩ := expect_of_ne context hk'
    exact of_errors (bind_of_error he) (bind_of_error he')

section

variable (hR : Node.Likeness R) (hb : c.Beside R c')
include hR hb

/-- Related cursors advance to related cursors, or not at all. -/
theorem tryAdvance_bind {f f' : Bool → Walk β}
    (ht : ∀ d d', d.Beside R d' → d.rest.length < c.rest.length →
      d'.rest.length < c'.rest.length → Agree (f true) d (f' true) d')
    (hf : ∀ d d', Agree (f false) d (f' false) d') :
    Agree (Walk.tryAdvance >>= f) c (Walk.tryAdvance >>= f') c' := by
  rcases hb.rest.next? hR with ⟨hn, hn'⟩ | ⟨m, ms, m', ms', hn, hn', hm, hms⟩
  · exact bind_of_ok (tryAdvance_of_none hn) (tryAdvance_of_none hn') (hf _ _)
  · obtain ⟨d, hd, hs, hfocus, hrest⟩ := tryAdvance_of_some hn
    obtain ⟨d', hd', hs', hfocus', hrest'⟩ := tryAdvance_of_some hn'
    refine bind_of_ok hd hd' (ht d d' ⟨?_, ?_, ?_⟩ ?_ ?_)
    · rw [hs, hs', hb.source]
    · rw [hfocus, hfocus']
      exact hm
    · rw [hrest, hrest']
      exact hms
    · rw [hrest]
      exact Node.length_of_next? hn
    · rw [hrest']
      exact Node.length_of_next? hn'

theorem advance_bind {context expected : String} {f f' : Unit → Walk β}
    (h : ∀ d d', d.Beside R d' → d.rest.length < c.rest.length →
      d'.rest.length < c'.rest.length → Agree (f ()) d (f' ()) d') :
    Agree (Walk.advance context expected >>= f) c (Walk.advance context expected >>= f') c' := by
  rw [Walk.advance, bind_assoc, bind_assoc]
  refine tryAdvance_bind hR hb (fun d d' hd hl hl' => ?_) fun d d' => ?_
  · exact bind_of_ok (a := ()) rfl rfl (h d d' hd hl hl')
  · exact of_errors rfl rfl

end

/-- Among the children of nodes that begin alike, walks start on related cursors, with fewer
siblings behind them than there are children. -/
theorem within_of_lt {context : String} (hs : c'.source = c.source)
    (hn : Node.Tight R c.focus c'.focus)
    (hw : ∀ d d', d.Beside R d' → d.rest.length < c.focus.children.length →
      d'.rest.length < c'.focus.children.length → Agree w d w' d') :
    Agree (Walk.within context w) c (Walk.within context w') c' := by
  rcases hn.heads with ⟨hc, hc'⟩ | ⟨m, ms, m', ms', hc, hc', hm, hms⟩
  · exact of_errors (within_of_nil hc) (within_of_nil hc')
  · intro a
    rw [within_eq_ok hc, within_eq_ok hc']
    refine hw ⟨_, (c.focus, 0) :: c.trail, m⟩ ⟨_, (c'.focus, 0) :: c'.trail, m'⟩
      ⟨hs, hm, ?_⟩ ?_ ?_ a
    · simpa [Cursor.rest, hc, hc'] using hms
    · simp [Cursor.rest, hc]
    · simp [Cursor.rest, hc']

theorem within {context : String} (hs : c'.source = c.source) (hn : Node.Tight R c.focus c'.focus)
    (hw : ∀ d d', d.Beside R d' → Agree w d w' d') :
    Agree (Walk.within context w) c (Walk.within context w') c' :=
  within_of_lt hs hn fun d d' hd _ _ => hw d d' hd

theorem fold {b : β} {g g' : β → Walk β} (hR : Node.Likeness R) (hs : c'.source = c.source)
    (hn : Node.Interleaved R c.focus.children c'.focus.children)
    (hg : ∀ b, Parallel R (g b) (g' b)) : Agree (Walk.fold g b) c (Walk.fold g' b) c' := by
  intro a
  rw [fold_exit (fun b => (hg b).left), fold_exit (fun b => (hg b).right), hs, exit_eq_ok,
    exit_eq_ok]
  exact foldlM_meaningful hR hg c.source hn b a

theorem collect {g g' : Walk (Option α)} (hR : Node.Likeness R) (hs : c'.source = c.source)
    (hn : Node.Interleaved R c.focus.children c'.focus.children) (hg : Parallel R g g') :
    Agree (Walk.collect g) c (Walk.collect g') c' := by
  have hstep : ∀ acc : List α, Parallel R (do return (← g).toList ++ acc)
      (do return (← g').toList ++ acc) := fun acc =>
    ⟨hg.left.bind fun _ => .pure _, hg.right.bind fun _ => .pure _, fun d d' hd hn =>
      bind hg.left hg.right (hg.agree d d' hd hn) fun _ => pure _⟩
  refine bind (.fold (fun acc => (hstep acc).left) []) (.fold (fun acc => (hstep acc).right) [])
    (fold hR hs hn hstep) fun _ => pure _

end Agree

section

variable {R : Node → Node → Prop} {w w' : Walk α}

theorem Parallel.agree_bind {f f' : α → Walk β} {c c' : Cursor}
    (hw : Parallel R w w') (hc : c.Beside R c') (hf : ∀ a, Agree (f a) c (f' a) c') :
    Agree (w >>= f) c (w' >>= f') c' :=
  .bind hw.left hw.right (hw.agree c c' hc.source hc.focus) hf

/-- Both leave out the nodes of the same kinds. -/
theorem Parallel.unless (hR : Node.Likeness R) (hw : Parallel R w w')
    (p : String → Prop) [DecidablePred p] :
    Parallel R (do if p (← kind) then return none else return some (← w))
      (do if p (← kind) then return none else return some (← w')) where
  left := Steady.kind.bind fun _ => .ite (.pure _) (hw.left.bind fun _ => .pure _)
  right := Steady.kind.bind fun _ => .ite (.pure _) (hw.right.bind fun _ => .pure _)
  agree c c' hs hn := by
    refine .kind_bind (Cursor.like_of_above hs (hR.above hn)) (.ite (fun _ => .pure _) fun _ => ?_)
    exact .bind hw.left hw.right (hw.agree c c' hs hn) fun _ => .pure _

end

end Walk

end TypedScript
