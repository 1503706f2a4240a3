import TypedScript.Proofs.Tree.Brackets
import TypedScript.Proofs.Tree.Position

/-! # Trees have the shape of their events

The tree that is put together from events is the last node or token completed outside all others.
It has the shape of its events, its leaves have the texts of its tokens, and its nodes cover what is
inside them, in order. -/

namespace TypedScript

namespace Text

/-- A first character takes up at least one byte. -/
theorem utf8ByteSize_ofList_cons (c : Char) (cs : List Char) :
    ∃ k, c.utf8Size = k + 1 ∧
      (String.ofList (c :: cs)).utf8ByteSize = (String.ofList cs).utf8ByteSize + k + 1 := by
  obtain ⟨k, hk⟩ := Nat.exists_eq_succ_of_ne_zero (Nat.ne_of_gt c.utf8Size_pos)
  refine ⟨k, hk, ?_⟩
  rw [String.ofList_cons, String.utf8ByteSize_append, String.utf8ByteSize_singleton, hk]
  omega

theorem dropBytes_append (cs rest : List Char) :
    dropBytes (String.ofList cs).utf8ByteSize (cs ++ rest) = some rest := by
  induction cs with
  | nil => cases rest <;> rfl
  | cons c cs ih =>
    obtain ⟨k, hk, hsize⟩ := utf8ByteSize_ofList_cons c cs
    rw [hsize, List.cons_append, dropBytes, hk, if_pos (by omega), Nat.add_assoc,
      Nat.add_sub_cancel, ih]

theorem takeBytes_append (cs rest : List Char) :
    takeBytes (String.ofList cs).utf8ByteSize (cs ++ rest) = some cs := by
  induction cs with
  | nil => cases rest <;> rfl
  | cons c cs ih =>
    obtain ⟨k, hk, hsize⟩ := utf8ByteSize_ofList_cons c cs
    rw [hsize, List.cons_append, takeBytes, hk, if_pos (by omega), Nat.add_assoc,
      Nat.add_sub_cancel, ih, Option.map_some]

/-- A piece of text is found again between the offsets it was put at. -/
theorem slice?_append (before text rest : String) :
    slice? (before ++ text ++ rest) before.utf8ByteSize (before ++ text).utf8ByteSize =
      some text := by
  have hdrop := dropBytes_append before.toList (text.toList ++ rest.toList)
  have htake := takeBytes_append text.toList rest.toList
  rw [String.ofList_toList] at hdrop htake
  rw [slice?, String.utf8ByteSize_append, if_pos (Nat.le_add_right _ _), Nat.add_sub_cancel_left,
    String.toList_append, String.toList_append, List.append_assoc, hdrop, Option.bind_some, htake,
    Option.map_some, String.ofList_toList]

/-- A text that goes on from another one. -/
def Begins (s s' : String) : Prop := ∃ rest, s' = s ++ rest

namespace Begins

variable {s s' s'' : String}

theorem refl (s : String) : Begins s s := ⟨"", String.append_empty.symm⟩

theorem append (s rest : String) : Begins s (s ++ rest) := ⟨rest, rfl⟩

theorem trans (h : Begins s s') (h' : Begins s' s'') : Begins s s'' := by
  obtain ⟨rest, rfl⟩ := h
  obtain ⟨rest', rfl⟩ := h'
  exact ⟨rest ++ rest', String.append_assoc⟩

theorem utf8ByteSize_le (h : Begins s s') : s.utf8ByteSize ≤ s'.utf8ByteSize := by
  obtain ⟨rest, rfl⟩ := h
  rw [String.utf8ByteSize_append]
  exact Nat.le_add_right _ _

end Begins

end Text

namespace Shape

mutual
/-- The node has the kind of the shape, and what is inside it has the shapes that are inside. -/
def Fits : Shape → Node → Prop
  | .token kind _, n => n.kind = kind ∧ n.children = []
  | .node kind inside, n => n.kind = kind ∧ FitAll inside n.children

def FitAll : List Shape → List Node → Prop
  | [], [] => True
  | s :: ss, n :: ns => s.Fits n ∧ FitAll ss ns
  | _, _ => False
end

mutual
/-- The nodes that stand for the tokens of a shape, depth first. -/
def leaves : Shape → Node → List Node
  | .token _ _, n => [n]
  | .node _ inside, n => leavesAll inside n.children

def leavesAll : List Shape → List Node → List Node
  | s :: ss, n :: ns => s.leaves n ++ leavesAll ss ns
  | _, _ => []
end

def at? : List Nat → Shape → Option Shape
  | [], s => some s
  | i :: path, .node _ inside => inside[i]?.bind (at? path)
  | _ :: _, .token _ _ => none

def firstStart (ss : List Shape) (ns : List Node) : Option Nat :=
  (leavesAll ss ns).head?.map (·.start)

theorem firstStart_node (kind : String) (inside ss : List Shape) (n : Node) (ns : List Node) :
    firstStart (.node kind inside :: ss) (n :: ns) =
      (firstStart inside n.children).or (firstStart ss ns) := by
  simp only [firstStart, leavesAll, leaves, List.head?_append, Option.map_or]

end Shape

open Event Shape

namespace Assembly

/-! ## What events do -/

/-- The text goes on to `source`, and open nodes without a start get one. -/
def grow (a : Assembly) (source : String) (start : Option Nat) : Assembly :=
  { a with source, pending := a.pending.map fun p => { p with start := p.start.or start } }

def attachAll (a : Assembly) (ns : List Node) : Assembly := ns.foldl attach a

theorem grow_none (a : Assembly) (source : String) :
    a.grow source none = { a with source := source } := by
  simp [grow]

theorem grow_grow (a : Assembly) (source source' : String) (start start' : Option Nat) :
    (a.grow source start).grow source' start' = a.grow source' (start.or start') := by
  simp [grow, Option.or_assoc]

theorem grow_attach (a : Assembly) (n : Node) (source : String) (start : Option Nat) :
    (a.attach n).grow source start = (a.grow source start).attach n := by
  obtain ⟨text, pending, root⟩ := a
  cases pending <;> rfl

theorem attach_source (a : Assembly) (n : Node) : (a.attach n).source = a.source := by
  obtain ⟨text, pending, root⟩ := a
  cases pending <;> rfl

theorem step_token (a : Assembly) (kind text : String) :
    a.step (.token kind text) =
      (a.grow (separated a.source ++ text) (some (separated a.source).utf8ByteSize)).attach
        ⟨kind, (separated a.source).utf8ByteSize, (separated a.source ++ text).utf8ByteSize,
          []⟩ := by
  have hstart : ∀ (o : Option Nat) (i : Nat), some (o.getD i) = o.or (some i) := by
    intro o i
    cases o <;> rfl
  simp only [step, grow, hstart]

/-- Inside an open node the nodes become its latest children. -/
theorem attachAll_cons (source : String) (p : OpenNode) (ps : List OpenNode) (root : Option Node)
    (ns : List Node) :
    attachAll ⟨source, p :: ps, root⟩ ns =
      ⟨source, { p with children := ns.reverse ++ p.children } :: ps, root⟩ := by
  induction ns generalizing p with
  | nil => rfl
  | cons n ns ih =>
    rw [attachAll, List.foldl_cons]
    exact (ih { p with children := n :: p.children }).trans (by simp)

/-- A node that was started and filled is attached when it is finished. -/
theorem step_finish (a : Assembly) (kind source : String) (start : Option Nat) (ns : List Node) :
    (((a.step (.start kind)).grow source start).attachAll ns).step .finish =
      (a.grow source start).attach
        ⟨kind, start.getD source.utf8ByteSize, source.utf8ByteSize, ns⟩ := by
  have hstart : (a.step (.start kind)).grow source start =
      ⟨source, ⟨kind, start, []⟩ :: (a.grow source start).pending, a.root⟩ := by
    simp [step, grow]
  rw [hstart, attachAll_cons]
  simp only [step, List.append_nil, List.reverse_reverse]
  rfl

/-- The nodes of some shapes as they are laid out behind `source`, which becomes `after`. -/
inductive Laid : String → List Event → List Shape → List Node → String → Prop
  | nil {source : String} : Laid source [] [] [] source
  | lineBreak {source after : String} {es : List Event} {ss : List Shape} {ns : List Node}
      (rest : Laid (source ++ "\n") es ss ns after) : Laid source (.lineBreak :: es) ss ns after
  | token {source after : String} {es : List Event} {ss : List Shape} {ns : List Node}
      (kind text : String) (rest : Laid (separated source ++ text) es ss ns after) :
      Laid source (.token kind text :: es) (.token kind text :: ss)
        (⟨kind, (separated source).utf8ByteSize, (separated source ++ text).utf8ByteSize, []⟩ :: ns)
        after
  | node {source middle after : String} {inner es : List Event} {inside ss : List Shape}
      {ms ns : List Node} (kind : String) (within : Laid source inner inside ms middle)
      (rest : Laid middle es ss ns after) :
      Laid source (.start kind :: (inner ++ .finish :: es)) (.node kind inside :: ss)
        (⟨kind, (firstStart inside ms).getD middle.utf8ByteSize, middle.utf8ByteSize, ms⟩ :: ns)
        after

/-- Closed brackets leave behind the nodes of their shapes, in whatever is open. -/
theorem foldl_step_brackets {es : List Event} {ss : List Shape} (h : Brackets es ss)
    (a : Assembly) :
    ∃ ns source, Laid a.source es ss ns source ∧
      es.foldl step a = (a.grow source (firstStart ss ns)).attachAll ns := by
  -- The assembly stays free: what is inside a node runs with one more node open.
  induction h generalizing a with
  | nil => exact ⟨[], a.source, .nil, (grow_none a a.source).symm⟩
  | lineBreak _ ih =>
    obtain ⟨ns, source, hlaid, hrun⟩ := ih (a.step .lineBreak)
    exact ⟨ns, source, .lineBreak hlaid, hrun⟩
  | token kind text _ ih =>
    obtain ⟨ns, source, hlaid, hrun⟩ := ih (a.step (.token kind text))
    rw [step_token] at hlaid hrun
    rw [attach_source] at hlaid
    refine ⟨_, source, .token kind text hlaid, ?_⟩
    rw [List.foldl_cons, step_token, hrun, grow_attach, grow_grow]
    rfl
  | @node _ _ inside _ kind _ _ ihWithin ihRest =>
    obtain ⟨ms, middle, hwithin, hinner⟩ := ihWithin (a.step (.start kind))
    obtain ⟨ns, source, hlaid, hrun⟩ := ihRest ((a.grow middle (firstStart inside ms)).attach
      ⟨kind, (firstStart inside ms).getD middle.utf8ByteSize, middle.utf8ByteSize, ms⟩)
    rw [attach_source] at hlaid
    refine ⟨_, source, .node kind hwithin hlaid, ?_⟩
    rw [List.foldl_cons, List.foldl_append, hinner, List.foldl_cons, step_finish, hrun, grow_attach,
      grow_grow, firstStart_node]
    rfl

/-! ## What the layout is like -/

theorem begins_separated (source : String) : Text.Begins source (separated source) := by
  unfold separated
  split
  · exact .refl _
  · split
    · exact .refl _
    · exact .append _ _

def Between (low high : Nat) (n : Node) : Prop :=
  low ≤ n.start ∧ n.start ≤ n.stop ∧ n.stop ≤ high

theorem Between.mono {low low' high high' : Nat} {n : Node} (h : Between low high n)
    (hlow : low' ≤ low) (hhigh : high ≤ high') : Between low' high' n :=
  ⟨Nat.le_trans hlow h.1, h.2.1, Nat.le_trans h.2.2 hhigh⟩

theorem between_token (source kind text : String) :
    Between source.utf8ByteSize (separated source ++ text).utf8ByteSize
      ⟨kind, (separated source).utf8ByteSize, (separated source ++ text).utf8ByteSize, []⟩ :=
  ⟨(begins_separated source).utf8ByteSize_le,
    (Text.Begins.append (separated source) text).utf8ByteSize_le, Nat.le_refl _⟩

theorem between_firstStart {low high : Nat} {ss : List Shape} {ns : List Node}
    (h : ∀ n ∈ leavesAll ss ns, Between low high n) (hle : low ≤ high) :
    low ≤ (firstStart ss ns).getD high ∧ (firstStart ss ns).getD high ≤ high := by
  cases hfirst : (leavesAll ss ns).head? with
  | none =>
    rw [firstStart, hfirst]
    exact ⟨hle, Nat.le_refl _⟩
  | some n =>
    have hn := h n (List.mem_of_head? hfirst)
    rw [firstStart, hfirst]
    exact ⟨hn.1, Nat.le_trans hn.2.1 hn.2.2⟩

/-- A node that has its place in the text: a token has nothing inside, and a node starts with its
first token, if it has one, and ends with the text it closes. -/
def Stands : Shape → Node → Prop
  | .token _ _, n => n.children = []
  | .node _ inside, n => ∃ source es after, Laid source es inside n.children after ∧
      n.start = (firstStart inside n.children).getD after.utf8ByteSize ∧
      n.stop = after.utf8ByteSize

namespace Laid

variable {source after : String} {es : List Event} {ss : List Shape} {ns : List Node}

theorem fits (h : Laid source es ss ns after) : FitAll ss ns := by
  induction h with
  | nil => trivial
  | lineBreak _ ih => exact ih
  | token kind text _ ih => exact ⟨⟨rfl, rfl⟩, ih⟩
  | node kind _ _ ihWithin ihRest => exact ⟨⟨rfl, ihWithin⟩, ihRest⟩

theorem begins (h : Laid source es ss ns after) : Text.Begins source after := by
  induction h with
  | nil => exact .refl _
  | lineBreak _ ih => exact (Text.Begins.append _ _).trans ih
  | token kind text _ ih => exact ((begins_separated _).trans (.append _ _)).trans ih
  | node kind _ _ ihWithin ihRest => exact ihWithin.trans ihRest

/-- The leaves have the kinds and the texts of the tokens, in any text that goes on from there. -/
theorem map_leavesAll {final : String} (h : Laid source es ss ns after)
    (hfinal : Text.Begins after final) :
    (leavesAll ss ns).map (fun n => (n.kind, n.text final)) = es.filterMap token? := by
  induction h with
  | nil => rfl
  | lineBreak _ ih => exact ih hfinal
  | token kind text rest ih =>
    obtain ⟨more, rfl⟩ := rest.begins.trans hfinal
    rw [leavesAll, leaves, List.cons_append, List.nil_append, List.map_cons, ih hfinal, Node.text,
      Text.slice?_append]
    rfl
  | node kind _ rest ihWithin ihRest =>
    simp only [leavesAll, leaves, List.map_append, ihWithin (rest.begins.trans hfinal),
      ihRest hfinal, List.filterMap_cons, List.filterMap_append, token?]

/-- All nodes, those for the tokens included, lie in the text that was added. -/
theorem between (h : Laid source es ss ns after) :
    ∀ n, n ∈ ns ∨ n ∈ leavesAll ss ns → Between source.utf8ByteSize after.utf8ByteSize n := by
  induction h with
  | nil =>
    intro n hn
    rcases hn with hn | hn <;> cases hn
  | lineBreak _ ih =>
    intro n hn
    exact (ih n hn).mono (Text.Begins.append _ _).utf8ByteSize_le (Nat.le_refl _)
  | @token source _ _ _ _ kind text rest ih =>
    intro n hn
    have hleaf := between_token source kind text
    have hlow := Nat.le_trans hleaf.1 hleaf.2.1
    rcases hn with hn | hn
    · rcases List.mem_cons.mp hn with rfl | hn
      · exact hleaf.mono (Nat.le_refl _) rest.begins.utf8ByteSize_le
      · exact (ih n (.inl hn)).mono hlow (Nat.le_refl _)
    · rcases List.mem_cons.mp hn with rfl | hn
      · exact hleaf.mono (Nat.le_refl _) rest.begins.utf8ByteSize_le
      · exact (ih n (.inr hn)).mono hlow (Nat.le_refl _)
  | node kind within rest ihWithin ihRest =>
    intro n hn
    rcases hn with hn | hn
    · rcases List.mem_cons.mp hn with rfl | hn
      · obtain ⟨hlow, hhigh⟩ := between_firstStart (fun n hn => ihWithin n (.inr hn))
          within.begins.utf8ByteSize_le
        exact ⟨hlow, hhigh, rest.begins.utf8ByteSize_le⟩
      · exact (ihRest n (.inl hn)).mono within.begins.utf8ByteSize_le (Nat.le_refl _)
    · rcases List.mem_append.mp hn with hn | hn
      · exact (ihWithin n (.inr hn)).mono (Nat.le_refl _) rest.begins.utf8ByteSize_le
      · exact (ihRest n (.inr hn)).mono within.begins.utf8ByteSize_le (Nat.le_refl _)

/-- Nodes that follow each other do not overlap. -/
theorem pairwise (h : Laid source es ss ns after) :
    ns.Pairwise fun l r => l.stop ≤ r.start := by
  induction h with
  | nil => exact .nil
  | lineBreak _ ih => exact ih
  | token kind text rest ih => exact .cons (fun r hr => (rest.between r (.inl hr)).1) ih
  | node kind _ rest _ ih => exact .cons (fun r hr => (rest.between r (.inl hr)).1) ih

/-- Every node of the tree stands at the place that its part of the shape has. -/
theorem stands {i : Nat} {path : List Nat} {m n : Node} (h : Laid source es ss ns after)
    (hm : ns[i]? = some m) (hn : m.at? path = some n) :
    ∃ r s, ss[i]? = some r ∧ r.at? path = some s ∧ Stands s n := by
  induction h generalizing i path m n with
  | nil => simp at hm
  | lineBreak _ ih => exact ih hm hn
  | token kind text _ ih =>
    cases i with
    | succ i => exact ih hm hn
    | zero =>
      cases hm
      cases path with
      | nil =>
        cases hn
        exact ⟨_, _, rfl, rfl, rfl⟩
      | cons j path => simp [Node.at?] at hn
  | node kind within _ ihWithin ihRest =>
    cases i with
    | succ i => exact ihRest hm hn
    | zero =>
      cases hm
      cases path with
      | nil =>
        cases hn
        exact ⟨_, _, rfl, rfl, _, _, _, within, rfl, rfl⟩
      | cons j path =>
        obtain ⟨child, hchild, hn⟩ := Option.bind_eq_some_iff.mp hn
        obtain ⟨r, s, hr, hs, hstands⟩ := ihWithin hchild hn
        refine ⟨_, s, rfl, ?_, hstands⟩
        rw [Shape.at?, hr]
        exact hs

end Laid

namespace Stands

variable {s : Shape} {n : Node}

theorem pairwise (h : Stands s n) : n.children.Pairwise fun l r => l.stop ≤ r.start := by
  cases s with
  | token kind text =>
    have hnil : n.children = [] := h
    rw [hnil]
    exact .nil
  | node kind inside =>
    obtain ⟨source, es, after, hlaid, -, -⟩ := h
    exact hlaid.pairwise

theorem start_eq {kind : String} {inside : List Shape} {first : Node}
    (h : Stands (.node kind inside) n)
    (hfirst : (leavesAll inside n.children).head? = some first) : n.start = first.start := by
  obtain ⟨source, es, after, -, hstart, -⟩ := h
  rw [hstart, firstStart, hfirst]
  rfl

theorem le_stop {kind : String} {inside : List Shape} {leaf : Node}
    (h : Stands (.node kind inside) n) (hleaf : leaf ∈ leavesAll inside n.children) :
    leaf.stop ≤ n.stop := by
  obtain ⟨source, es, after, hlaid, -, hstop⟩ := h
  rw [hstop]
  exact (hlaid.between leaf (.inr hleaf)).2.2

end Stands

/-! ## Whole runs -/

theorem length_attach (a : Assembly) (n : Node) :
    (a.attach n).pending.length = a.pending.length := by
  obtain ⟨source, pending, root⟩ := a
  cases pending <;> rfl

theorem length_step (a : Assembly) (e : Event) :
    (a.step e).pending.length = e.depth a.pending.length := by
  cases e with
  | start kind => rfl
  | lineBreak => rfl
  | token kind text => simp [step, length_attach, depth]
  | finish =>
    obtain ⟨source, pending, root⟩ := a
    cases pending with
    | nil => rfl
    | cons p ps => simp [step, length_attach, depth]

/-- As many nodes are pending as the events have left open. -/
theorem length_foldl (es : List Event) (a : Assembly) :
    (es.foldl step a).pending.length = es.foldl depth a.pending.length := by
  induction es generalizing a with
  | nil => rfl
  | cons e es ih => rw [List.foldl_cons, List.foldl_cons, ih, length_step]

theorem begins_step (a : Assembly) (e : Event) : Text.Begins a.source (a.step e).source := by
  cases e with
  | start kind => exact .refl _
  | lineBreak => exact .append _ _
  | token kind text =>
    rw [step_token, attach_source]
    exact (begins_separated _).trans (.append _ _)
  | finish =>
    obtain ⟨source, pending, root⟩ := a
    cases pending with
    | nil => exact .refl _
    | cons p ps =>
      simp only [step, attach_source]
      exact .refl _

theorem begins_foldl (es : List Event) (a : Assembly) :
    Text.Begins a.source (es.foldl step a).source := by
  induction es generalizing a with
  | nil => exact .refl _
  | cons e es ih => exact (begins_step a e).trans (ih _)

theorem root_step {a : Assembly} {e : Event} (h : e.completes a.pending.length = false) :
    (a.step e).root = a.root := by
  obtain ⟨source, pending, root⟩ := a
  cases e with
  | start kind => rfl
  | lineBreak => rfl
  | token kind text =>
    cases pending with
    | nil => cases h
    | cons p ps => rfl
  | finish =>
    rcases pending with _ | ⟨p, _ | ⟨q, ps⟩⟩
    · rfl
    · cases h
    · rfl

/-- The root stays as long as nothing is completed outside all open nodes. -/
theorem root_foldl {es : List Event} {a : Assembly} (h : ∀ p e q, es = p ++ e :: q →
    e.completes (p.foldl depth a.pending.length) = false) : (es.foldl step a).root = a.root := by
  induction es generalizing a with
  | nil => rfl
  | cons e es ih =>
    rw [List.foldl_cons, ih, root_step (h [] e es rfl)]
    rintro p e' q rfl
    rw [length_step]
    exact h (e :: p) e' q rfl

def run (es : List Event) : Assembly := es.foldl step empty

theorem length_run (es : List Event) : (run es).pending.length = openNodes es :=
  length_foldl es empty

theorem run_append (es es' : List Event) : run (es ++ es') = es'.foldl step (run es) :=
  List.foldl_append

/-- Shapes that a single one is laid out for are one node. -/
theorem Laid.exists_node {source after : String} {es : List Event} {s : Shape} {ns : List Node}
    (h : Laid source es [s] ns after) : ∃ n, ns = [n] := by
  rcases ns with _ | ⟨n, _ | ⟨m, ns⟩⟩
  · exact h.fits.elim
  · exact ⟨n, rfl⟩
  · exact h.fits.2.elim

end Assembly

/-- The tree shows what events spell out: it has the shape, its leaves have the kinds and texts of
the tokens in order, a node with tokens inside starts with the first one and does not end before the
last one, and siblings follow each other. -/
structure Tree.Shows (t : Tree) (es : List Event) (s : Shape) : Prop where
  shape : s.Fits t.root
  texts : (s.leaves t.root).map (fun n => (n.kind, n.text t.source)) = es.filterMap token?
  extent : ∀ path n kind inside, t.root.at? path = some n →
    s.at? path = some (.node kind inside) →
    (∀ first, (leavesAll inside n.children).head? = some first → n.start = first.start) ∧
    ∀ last, (leavesAll inside n.children).getLast? = some last → last.stop ≤ n.stop
  siblings : ∀ path n, t.root.at? path = some n →
    n.children.Pairwise fun l r => l.stop ≤ r.start

namespace Assembly

theorem Laid.shows {source after : String} {es : List Event} {s : Shape} {t : Tree}
    (h : Laid source es [s] [t.root] after) (hsource : Text.Begins after t.source) :
    t.Shows es s where
  shape := h.fits.1
  texts := by simpa [leavesAll] using h.map_leavesAll hsource
  extent path n kind inside hn hs := by
    obtain ⟨r, s', hr, hs', hstands⟩ := h.stands (i := 0) rfl hn
    cases hr
    cases hs.symm.trans hs'
    exact ⟨fun first hfirst => hstands.start_eq hfirst,
      fun last hlast => hstands.le_stop (List.mem_of_getLast? hlast)⟩
  siblings path n hn := by
    obtain ⟨r, s', -, -, hstands⟩ := h.stands (i := 0) rfl hn
    exact hstands.pairwise

/-- What was completed last outside all other nodes is the root. -/
theorem root_run {es front body back : List Event} {s : Shape}
    (h : LastCompleted es front body back s) :
    ∃ n, (run es).root = some n ∧ (⟨(run es).source, n⟩ : Tree).Shows body s := by
  obtain ⟨ns, source, hlaid, hbody⟩ := foldl_step_brackets h.brackets (run front)
  obtain ⟨n, rfl⟩ := hlaid.exists_node
  have hfront : (run front).pending = [] := by
    rw [← List.length_eq_zero_iff, length_run, h.outside]
  have hrun : run (front ++ body) = ⟨source, [], some n⟩ := by
    rw [run_append, hbody]
    simp [attachAll, attach, grow, hfront]
  have hes : run es = back.foldl step (run (front ++ body)) := by
    rw [h.split, run_append]
  refine ⟨n, ?_, hlaid.shows ?_⟩
  · rw [hes, root_foldl, hrun]
    intro p e q hback
    rw [length_run, ← openNodes_append]
    exact h.last p e q hback
  · have hmore := begins_foldl back (run (front ++ body))
    rw [← hes, hrun] at hmore
    exact hmore

/-- There is a root just if something was completed outside all other nodes. -/
theorem root_run_eq_none_iff (es : List Event) : (run es).root = none ↔ ¬ Completed es := by
  constructor
  · intro hroot h
    obtain ⟨front, body, back, s, hlast⟩ := exists_lastCompleted h
    obtain ⟨n, hn, -⟩ := root_run hlast
    rw [hroot] at hn
    cases hn
  · intro h
    apply root_foldl
    rintro p e q rfl
    exact Bool.eq_false_iff.mpr fun he => h ⟨p, e, q, rfl, he⟩

theorem exists_finish_error_iff {a : Assembly} :
    (∃ f, a.finish = .error f) ↔ a.pending ≠ [] ∨ a.root = none := by
  obtain ⟨source, pending, root⟩ := a
  cases pending with
  | cons p ps => simp [finish]
  | nil => cases root <;> simp [finish]

theorem finish_eq_ok_iff {a : Assembly} {t : Tree} :
    a.finish = .ok t ↔ a.pending = [] ∧ a.root = some t.root ∧ a.source = t.source := by
  obtain ⟨source, pending, root⟩ := a
  obtain ⟨source', root'⟩ := t
  cases pending with
  | cons p ps => simp [finish]
  | nil => cases root <;> simp [finish, and_comm]

end Assembly

namespace Tree

/-- Events make no tree just if a node is still open or nothing was ever completed outside all other
nodes. Otherwise the root is what was completed last, and the tree shows its events. -/
theorem ofEvents_shows (es : List Event) :
    ((∃ f, ofEvents es = .error f) ↔ openNodes es ≠ 0 ∨ ¬ Completed es) ∧
    ∀ t, ofEvents es = .ok t →
      (∃ front body back s, LastCompleted es front body back s) ∧
      ∀ front body back s, LastCompleted es front body back s → t.Shows body s := by
  have hopen : (Assembly.run es).pending = [] ↔ openNodes es = 0 := by
    rw [← List.length_eq_zero_iff, Assembly.length_run]
  have hnone := Assembly.root_run_eq_none_iff es
  constructor
  · rw [← hnone, Ne, ← hopen]
    exact Assembly.exists_finish_error_iff
  · intro t ht
    obtain ⟨-, hroot, hsource⟩ := Assembly.finish_eq_ok_iff.mp ht
    change (Assembly.run es).source = t.source at hsource
    constructor
    · by_cases hdone : Completed es
      · exact exists_lastCompleted hdone
      · cases hroot.symm.trans (hnone.mpr hdone)
    · intro front body back s hlast
      obtain ⟨n, hn, hshows⟩ := Assembly.root_run hlast
      cases hroot.symm.trans hn
      rwa [hsource] at hshows

/-- A node with nothing inside, a line break inside a node and tokens of no, one and two bytes. -/
def scriptEvents : List Event :=
  [.start "Script", .start "Body", .finish, .token "String" "é", .lineBreak, .token "newline" "",
    .token "Number" "1", .finish]

/-- A root that is replaced, and a finish with nothing open before and behind the other one. -/
def twoRoots : List Event :=
  [.token "Comment" "#", .finish, .lineBreak] ++ scriptEvents ++ [.finish]

theorem ofEvents_shows_twoRoots :
    let script : Shape := .node "Script" [.node "Body" [], .token "String" "é", .token "newline" "",
      .token "Number" "1"]
    LastCompleted twoRoots [.token "Comment" "#", .finish, .lineBreak] scriptEvents [.finish]
      script ∧
    ∃ t, ofEvents twoRoots = .ok t ∧ t.Shows scriptEvents script := by
  intro script
  obtain ⟨hfails, hshows⟩ := ofEvents_shows twoRoots
  have hlast : LastCompleted twoRoots [.token "Comment" "#", .finish, .lineBreak] scriptEvents
      [.finish] script := by
    refine ⟨rfl, rfl, ?_, fun p e q hback => ?_⟩
    · exact .node "Script" (.node "Body" .nil (.token "String" "é" (.lineBreak
        (.token "newline" "" (.token "Number" "1" .nil))))) .nil
    · cases p with
      | nil =>
        cases hback
        rfl
      | cons e' p => simp at hback
  refine ⟨hlast, ?_⟩
  cases ht : ofEvents twoRoots with
  | ok t => exact ⟨t, rfl, (hshows t ht).2 _ _ _ _ hlast⟩
  | error f =>
    rcases hfails.mp ⟨f, ht⟩ with hopen | hnone
    · exact absurd rfl hopen
    · exact absurd ⟨[], _, _, rfl, rfl⟩ hnone

end Tree

end TypedScript
