import Mathlib.Data.List.Forall2
import TypedScript.Proofs.Walk.Assignment

/-! # The parts of a script

A script is read child by child, and every child that is no trivia ends up in one place. Functions
and classes are set apart; of the others, the declarations in front become global variables, and the
rest become statements. What a child is read as has nothing to do with the other children. -/

namespace TypedScript

/-- Pairs that are kept on both sides stay pairs. -/
theorem forall₂_filter_filterMap {α β γ : Type} {R : α → β → Prop} {S : α → γ → Prop} {q : α → Bool}
    {g : β → Option γ} {xs : List α} {ys : List β} (h : List.Forall₂ R xs ys)
    (hR : ∀ x y, R x y → (q x = true ∧ ∃ z, g y = some z ∧ S x z) ∨ (q x = false ∧ g y = none)) :
    List.Forall₂ S (xs.filter q) (ys.filterMap g) := by
  induction h with
  | nil => exact .nil
  | @cons x y xs ys hxy _ ih =>
    rcases hR x y hxy with ⟨hq, z, hz, hs⟩ | ⟨hq, hz⟩
    · rw [List.filter_cons_of_pos hq, List.filterMap_cons_some hz]
      exact .cons hs ih
    · rw [List.filter_cons_of_neg (by simp [hq]), List.filterMap_cons_none hz]
      exact ih

theorem exists_of_forall₂ {α β : Type} {R : α → β → Prop} {xs : List α} {ys : List β}
    (h : List.Forall₂ R xs ys) : ∀ x ∈ xs, ∃ y, R x y := by
  induction h with
  | nil => simp
  | cons hxy _ ih => exact List.forall_mem_cons.mpr ⟨⟨_, hxy⟩, ih⟩

/-- What is computed from each element of a list is what a relation says of it. -/
theorem mapM_eq_ok_iff {ε α β : Type} {f : α → Except ε β} {R : α → β → Prop} {xs : List α}
    {ys : List β} (h : ∀ x ∈ xs, ∀ y, f x = .ok y ↔ R x y) :
    xs.mapM f = .ok ys ↔ List.Forall₂ R xs ys := by
  constructor
  · intro hys
    have hall := mapM_ok hys
    clear hys
    induction hall with
    | nil => exact .nil
    | @cons x y xs ys hy _ ih =>
      exact .cons ((h x List.mem_cons_self y).mp hy) (ih fun z hz => h z (.tail x hz))
  · intro hys
    apply mapM_of_forall₂
    induction hys with
    | nil => exact .nil
    | @cons x y xs ys hy _ ih =>
      exact .cons ((h x List.mem_cons_self y).mpr hy) (ih fun z hz => h z (.tail x hz))

/-- There is one longest front whose elements all have a property. -/
theorem front_unique {α : Type} {P : α → Prop} {front back front' back' : List α}
    (h : front ++ back = front' ++ back') (hf : ∀ x ∈ front, P x) (hf' : ∀ x ∈ front', P x)
    (hb : ∀ x, back.head? = some x → ¬ P x) (hb' : ∀ x, back'.head? = some x → ¬ P x) :
    front = front' ∧ back = back' := by
  rcases List.append_eq_append_iff.mp h with ⟨as, rfl, rfl⟩ | ⟨as, rfl, rfl⟩
  · cases as with
    | nil => simp
    | cons a as => exact absurd (hf' a (by simp)) (hb a rfl)
  · cases as with
    | nil => simp
    | cons a as => exact absurd (hf a (by simp)) (hb' a rfl)

theorem Assignment.varDef?_eq_some_iff {a : Assignment} {d : VarDef} :
    a.varDef? = some d ↔ a.target = .name d.name ∧ a.ty = some d.ty ∧
      literal? a.value = some d.value ∧ a.span = d.span := by
  obtain ⟨target, ty, value, span⟩ := a
  constructor
  · intro h
    unfold varDef? at h
    split at h
    · next x ty' htarget hty =>
      obtain ⟨l, hl, rfl⟩ := Option.map_eq_some_iff.mp h
      exact ⟨htarget, hty, hl, rfl⟩
    · cases h
  · rintro ⟨htarget, hty, hvalue, hspan⟩
    dsimp only at htarget hty hvalue hspan
    subst htarget hty
    rw [varDef?, hvalue, hspan]
    rfl

def Stmt.Plain (s : Stmt) : Prop := (∀ f, s ≠ .func f) ∧ ∀ c, s ≠ .cls c

/-- The kind of the nodes that are read as such statements. -/
def Stmt.kind : Stmt → String
  | .assign .. | .declare _ => "AssignStatement"
  | .branch .. => "IfStatement"
  | .loop .. => "WhileStatement"
  | .pass _ => "PassStatement"
  | .ret .. => "ReturnStatement"
  | .expr _ => "ExpressionStatement"
  | .func _ => "FunctionDefinition"
  | .cls _ => "ClassDefinition"

theorem Assignment.kind_stmt (a : Assignment) : a.stmt.kind = "AssignStatement" := by
  unfold Assignment.stmt
  split <;> rfl

namespace Node

def func (source : String) (n : Node) : Except (Located ParseError) FuncDef :=
  (Walk.funcDef (Walk.stmt n.height) none).reading source n

def cls (source : String) (n : Node) : Except (Located ParseError) ClassDef :=
  (Walk.classDef (Walk.stmt n.height) (Walk.expr n.height)).reading source n

def stmt (source : String) (n : Node) : Except (Located ParseError) Stmt :=
  (Walk.stmt n.height).reading source n

/-- The node gives a plain name a type and a literal value. -/
def Declares (source : String) (n : Node) (d : VarDef) : Prop :=
  ∃ target value, n.Assigns source target (some d.ty) value ∧ target.kind = "VariableName" ∧
    target.text source = d.name ∧ value.Denotes source d.value ∧ n.span source = d.span

/-- The statement that a node becomes. A plain name with a type is declared; the type of a member is
of no account. -/
inductive Becomes (source : String) (n : Node) : Stmt → Prop
  | declare {target ty value v} (h : n.Assigns source target (some ty) value)
      (ht : target.kind = "VariableName") (hv : value.expr source = .ok v) :
      Becomes source n (.declare ⟨target.text source, ty, v, n.span source⟩)
  | assign {target value v} (h : n.Assigns source target none value)
      (ht : target.kind = "VariableName") (hv : value.expr source = .ok v) :
      Becomes source n (.assign (n.span source) (.name (target.text source)) v)
  | assignMember {target ty value object o x v} (h : n.Assigns source target ty value)
      (ht : target.Selects source object x) (ho : object.expr source = .ok o)
      (hv : value.expr source = .ok v) :
      Becomes source n (.assign (n.span source) (.field o x) v)
  | other {s} (ha : n.kind ≠ "AssignStatement") (hs : n.stmt source = .ok s)
      (hk : s.kind = n.kind) : Becomes source n s

end Node

namespace Walk

variable {α β : Type} {w : Walk α} {f : α → Walk β} {P : β → Prop}

theorem branch_kind (s : Walk Stmt) (e : Walk Expr) :
    Gives (·.kind = "IfStatement") (branch s e) := by
  refine .bind fun span => .bind fun c => .within (.bind fun _ => .bind fun _ => ?_) _
  refine .bind fun condition => .bind fun _ => .bind fun _ => .bind fun body => ?_
  exact .bind fun arms => .pure rfl

theorem loop_kind (s : Walk Stmt) (e : Walk Expr) :
    Gives (·.kind = "WhileStatement") (loop s e) := by
  refine .bind fun span => .within (.bind fun _ => .bind fun _ => .bind fun condition => ?_) _
  exact .bind fun _ => .bind fun _ => .bind fun body => .pure rfl

theorem ret_kind (e : Walk Expr) : Gives (·.kind = "ReturnStatement") (ret e) := by
  refine .bind fun note => .within (.bind fun _ => .bind fun _ => .ite ?_ ?_) _
  · exact .bind fun value => .pure rfl
  · exact .pure rfl

theorem reading_kind_bind {g : String → Walk β} {source : String} {n : Node} :
    (Walk.kind >>= g).reading source n = (g n.kind).reading source n := rfl

theorem reading_bind_pure (hw : Steady w) {g : α → β} {source : String} {n : Node} {b : β} :
    (w >>= fun a => Pure.pure (g a)).reading source n = .ok b ↔
      ∃ a, w.reading source n = .ok a ∧ g a = b := by
  rw [hw.reading_bind, TypedScript.bind_eq_ok]
  refine exists_congr fun a => and_congr_right fun _ => ?_
  change Except.ok (g a) = Except.ok b ↔ g a = b
  rw [Except.ok.injEq]

theorem reading_map (hw : Steady w) {g : α → β} {source : String} {n : Node} :
    (g <$> w).reading source n = g <$> w.reading source n :=
  (hw.reading_bind source n).trans (by cases w.reading source n <;> rfl)

theorem foldlM_reverse {ε : Type} {r : Node → Except ε α} (ns : List Node) (acc : List α) :
    ns.foldlM (fun acc n => (· :: acc) <$> r n) acc = (·.reverse ++ acc) <$> ns.mapM r := by
  induction ns generalizing acc with
  | nil => rfl
  | cons n ns ih =>
    rw [List.foldlM_cons, List.mapM_cons]
    cases r n with
    | error e => rfl
    | ok a =>
      refine (ih (a :: acc)).trans ?_
      rw [ok_bind]
      cases ns.mapM r with
      | error e => rfl
      | ok xs => simp [Functor.map, Except.map, bind, Except.bind]

/-- What is found on the children is found on each of them by itself. -/
theorem reading_collect (hw : Steady w) {source : String} {n : Node} :
    (collect (some <$> w)).reading source n =
      (Node.meaningful n.children).mapM fun m => w.reading source m := by
  have hstep : ∀ acc : List α, Steady (do return (← some <$> w).toList ++ acc) := fun acc =>
    hw.map.bind fun _ => .pure _
  have hread : ∀ (acc : List α) (m : Node),
      (do return (← some <$> w).toList ++ acc : Walk (List α)).reading source m =
        (· :: acc) <$> w.reading source m := by
    intro acc m
    rw [hw.map.reading_bind, reading_map hw]
    cases w.reading source m <;> rfl
  rw [collect, (Steady.fold hstep []).reading_bind, reading_fold hstep]
  simp only [hread, foldlM_reverse]
  cases (Node.meaningful n.children).mapM fun m => w.reading source m with
  | error e => rfl
  | ok xs => simp [Functor.map, Except.map, bind, Except.bind, reading, pure, EStateM.pure]

end Walk

namespace Node

variable {source : String} {n : Node}

def definitionKinds : List String := ["FunctionDefinition", "ClassDefinition"]

/-- A node is read as a statement of its kind. -/
theorem kind_of_stmt {s : Stmt} (h : n.stmt source = .ok s) : s.kind = n.kind := by
  obtain ⟨d, hd⟩ := Nat.exists_eq_add_one_of_ne_zero (Nat.ne_of_gt n.height_pos)
  rw [stmt, hd, Walk.stmt, Walk.reading_kind_bind] at h
  generalize n.kind = kind at h ⊢
  -- Where the statement is made of one piece, the piece does not matter.
  have hmade {α : Type} {w : Walk α} {g : α → Stmt} {kind : String} (hg : ∀ a, (g a).kind = kind)
      (h : (w >>= fun a => pure (g a)).reading source n = .ok s) : s.kind = kind :=
    Walk.Gives.reading (P := (·.kind = kind)) (.bind fun a => .pure (hg a)) h
  split at h
  · exact hmade (fun a => a.kind_stmt) h
  · exact (Walk.branch_kind _ _).reading h
  · exact (Walk.loop_kind _ _).reading h
  · exact hmade (fun _ => rfl) h
  · exact (Walk.ret_kind _).reading h
  · exact hmade (fun _ => rfl) h
  · exact hmade (fun _ => rfl) h
  · exact hmade (fun _ => rfl) h
  · cases h

theorem plain_of_kind {s : Stmt} (h : s.kind ∉ definitionKinds) : s.Plain := by
  constructor
  · rintro f rfl
    exact h (.head _)
  · rintro c rfl
    exact h (.tail _ (.head _))

/-- How deep the walk may go makes no difference if it may go deep enough. -/
theorem assignment_depth (hk : n.kind = "AssignStatement") {h h' : Nat} (hh : n.height ≤ h + 1)
    (hh' : n.height ≤ h' + 1) (a : Assignment) :
    (Walk.assignment (Walk.expr h)).reading source n = .ok a ↔
      (Walk.assignment (Walk.expr h')).reading source n = .ok a := by
  have hto : PaddedTo (h + 1) (h' + 1) n n := ⟨.refl n, hh, hh'⟩
  have hparallel := Walk.assignment_parallel (likeness_paddedTo h h') (Walk.expr_parallel h h')
  exact hparallel.reading (hto.tight (by rw [hk]; decide)) source a

theorem stmt_eq_ok_of_assign (hk : n.kind = "AssignStatement") {s : Stmt} :
    n.stmt source = .ok s ↔ ∃ a, n.assignment source = .ok a ∧ a.stmt = s := by
  obtain ⟨d, hd⟩ := Nat.exists_eq_add_one_of_ne_zero (Nat.ne_of_gt n.height_pos)
  have hassign : (Walk.stmt (d + 1)).reading source n =
      (Walk.assignment (Walk.expr d) >>= fun a => pure a.stmt).reading source n := by
    rw [Walk.stmt, Walk.reading_kind_bind, hk]
    rfl
  rw [stmt, hd, hassign, Walk.reading_bind_pure (Walk.assignment_steady (Walk.expr_steady d))]
  refine exists_congr fun a => and_congr_left fun _ => ?_
  exact assignment_depth hk (Nat.le_of_eq hd) (Nat.le_succ _) a

theorem declares_iff {d : VarDef} : n.Declares source d ↔
    n.kind = "AssignStatement" ∧ ∃ a, n.assignment source = .ok a ∧ a.varDef? = some d := by
  constructor
  · rintro ⟨target, value, hassigns, hk, hname, hvalue, hspan⟩
    obtain ⟨v, hv, hl⟩ := denotes_iff.mp hvalue
    refine ⟨hassigns.1, ⟨.name d.name, some d.ty, v, d.span⟩, ?_, ?_⟩
    · rw [assignment_eq_ok_iff hassigns.1]
      exact ⟨target, value, hassigns, hname ▸ .name hk, hv, hspan⟩
    · exact Assignment.varDef?_eq_some_iff.mpr ⟨rfl, rfl, hl, rfl⟩
  · rintro ⟨hk, ⟨t, ty, v, span⟩, ha, hd⟩
    obtain ⟨target, value, hassigns, htarget, hv, hspan⟩ := (assignment_eq_ok_iff hk).mp ha
    obtain ⟨ht, hty, hl, hspan'⟩ := Assignment.varDef?_eq_some_iff.mp hd
    dsimp only at hassigns htarget hv hspan ht hty hl hspan'
    cases htarget with
    | name hname =>
      exact ⟨target, value, hty ▸ hassigns, hname, Target.name.inj ht,
        denotes_iff.mpr ⟨v, hv, hl⟩, hspan.trans hspan'⟩
    | field => cases ht

theorem becomes_iff {s : Stmt} :
    n.Becomes source s ↔ n.stmt source = .ok s := by
  constructor
  · intro h
    cases h with
    | other _ hs _ => exact hs
    | @declare target ty value v h ht hv =>
      refine (stmt_eq_ok_of_assign h.1).mpr ⟨⟨.name _, some ty, v, n.span source⟩, ?_, rfl⟩
      exact (assignment_eq_ok_iff h.1).mpr ⟨target, value, h, .name ht, hv, rfl⟩
    | @assign target value v h ht hv =>
      refine (stmt_eq_ok_of_assign h.1).mpr ⟨⟨.name _, none, v, n.span source⟩, ?_, rfl⟩
      exact (assignment_eq_ok_iff h.1).mpr ⟨target, value, h, .name ht, hv, rfl⟩
    | @assignMember target ty value object o x v h ht ho hv =>
      refine (stmt_eq_ok_of_assign h.1).mpr ⟨⟨.field o x, ty, v, n.span source⟩, ?_, rfl⟩
      exact (assignment_eq_ok_iff h.1).mpr ⟨target, value, h, .field ht ho, hv, rfl⟩
  · intro h
    by_cases ha : n.kind = "AssignStatement"
    · obtain ⟨⟨t, ty, v, span⟩, hread, rfl⟩ := (stmt_eq_ok_of_assign ha).mp h
      obtain ⟨target, value, hassigns, htarget, hv, hspan⟩ := (assignment_eq_ok_iff ha).mp hread
      dsimp only at hassigns htarget hv hspan
      subst hspan
      cases htarget with
      | name hname =>
        cases ty with
        | none => exact .assign hassigns hname hv
        | some ty => exact .declare hassigns hname hv
      | field hselects ho => exact .assignMember hassigns hselects ho hv
    · exact .other ha h (kind_of_stmt h)

inductive Item (source : String) (n : Node) : ScriptItem → Prop
  | func {f} (hk : n.kind = "FunctionDefinition") (h : n.func source = .ok f) :
      Item source n (.func f)
  | cls {c} (hk : n.kind = "ClassDefinition") (h : n.cls source = .ok c) : Item source n (.cls c)
  | assign {a} (hk : n.kind = "AssignStatement") (h : n.assignment source = .ok a) :
      Item source n (.assign a)
  | stmt {s} (hk : n.kind ∉ definitionKinds) (ha : n.kind ≠ "AssignStatement")
      (h : n.stmt source = .ok s) : Item source n (.stmt s)

theorem scriptItem_eq_ok {i : ScriptItem} :
    (Walk.scriptItem n.height).reading source n = .ok i ↔ Item source n i := by
  have hfunc := Walk.funcDef_steady (Walk.stmt_steady n.height) none
  have hcls := Walk.classDef_steady (Walk.stmt_steady n.height) (Walk.expr_steady n.height)
  have hassign := Walk.assignment_steady (Walk.expr_steady n.height)
  rw [Walk.scriptItem, Walk.reading_kind_bind]
  constructor
  · intro h
    split at h
    · next hk =>
      obtain ⟨f, hf, rfl⟩ := (Walk.reading_bind_pure hfunc).mp h
      exact .func hk hf
    · next hk =>
      obtain ⟨c, hc, rfl⟩ := (Walk.reading_bind_pure hcls).mp h
      exact .cls hk hc
    · next hk =>
      obtain ⟨a, ha, rfl⟩ := (Walk.reading_bind_pure hassign).mp h
      exact .assign hk ha
    · next hf hc ha =>
      obtain ⟨s, hs, rfl⟩ := (Walk.reading_bind_pure (Walk.stmt_steady n.height)).mp h
      refine .stmt ?_ ha hs
      simp only [definitionKinds, List.mem_cons, List.not_mem_nil, or_false, not_or]
      exact ⟨hf, hc⟩
  · intro h
    cases h with
    | func hk hf =>
      rw [hk]
      exact (Walk.reading_bind_pure hfunc).mpr ⟨_, hf, rfl⟩
    | cls hk hc =>
      rw [hk]
      exact (Walk.reading_bind_pure hcls).mpr ⟨_, hc, rfl⟩
    | assign hk ha =>
      rw [hk]
      exact (Walk.reading_bind_pure hassign).mpr ⟨_, ha, rfl⟩
    | stmt hk ha hs =>
      split
      · next hkind => simp [hkind, definitionKinds] at hk
      · next hkind => simp [hkind, definitionKinds] at hk
      · next hkind => exact absurd hkind ha
      · exact (Walk.reading_bind_pure (Walk.stmt_steady n.height)).mpr ⟨_, hs, rfl⟩

/-- A script is read if each of its children is, and the program is made of what they are read
as. -/
theorem script_eq_ok {p : Program} :
    (Walk.script n.height).reading source n = .ok p ↔ n.kind = "Script" ∧
      ∃ items, List.Forall₂ (Item source) (meaningful n.children) items ∧
        Program.ofItems items = p := by
  have hsteady := Walk.scriptItem_steady n.height
  have hitems (items : List ScriptItem) :
      ((meaningful n.children).mapM fun m => (Walk.scriptItem n.height).reading source m) =
          .ok items ↔ List.Forall₂ (Item source) (meaningful n.children) items := by
    apply mapM_eq_ok_iff
    intro m hm i
    have hle : m.height ≤ n.height :=
      height_le_succ.mp (Nat.le_succ _) m (List.mem_of_mem_filter hm)
    rw [← scriptItem_eq_ok]
    have hitem := Walk.scriptItem_parallel n.height m.height
    exact hitem.reading ⟨.refl m, hle, Nat.le_refl _⟩ source i
  rw [Walk.script, Walk.reading_kind_bind]
  split
  · next hk =>
    rw [Walk.reading_bind_pure (Walk.Steady.collect hsteady.map), Walk.reading_collect hsteady]
    simp only [hitems, hk, true_and]
  · next hk =>
    constructor
    · intro h
      cases h
    · intro h
      exact absurd h.1 hk

variable {ns : List Node} {items : List ScriptItem}

theorem Declares.unique {d d' : VarDef} (h : n.Declares source d) (h' : n.Declares source d') :
    d = d' := by
  obtain ⟨-, a, ha, hd⟩ := declares_iff.mp h
  obtain ⟨-, a', ha', hd'⟩ := declares_iff.mp h'
  obtain rfl : a = a' := Except.ok.inj (ha.symm.trans ha')
  exact Option.some.inj (hd.symm.trans hd')

theorem funcs_of_items (h : List.Forall₂ (Item source) ns items) :
    (ns.filter (·.kind = "FunctionDefinition")).mapM (func source) =
      .ok (items.filterMap ScriptItem.func?) := by
  refine mapM_of_forall₂ (forall₂_filter_filterMap h fun n i hi => ?_)
  cases hi with
  | func hk hf => exact .inl ⟨by simpa using hk, _, rfl, hf⟩
  | cls hk _ => exact .inr ⟨by simp [hk], rfl⟩
  | assign hk _ => exact .inr ⟨by simp [hk], rfl⟩
  | stmt hk _ _ => exact .inr ⟨by simp_all [definitionKinds], rfl⟩

theorem classes_of_items (h : List.Forall₂ (Item source) ns items) :
    (ns.filter (·.kind = "ClassDefinition")).mapM (cls source) =
      .ok (items.filterMap ScriptItem.cls?) := by
  refine mapM_of_forall₂ (forall₂_filter_filterMap h fun n i hi => ?_)
  cases hi with
  | func hk _ => exact .inr ⟨by simp [hk], rfl⟩
  | cls hk hc => exact .inl ⟨by simpa using hk, _, rfl, hc⟩
  | assign hk _ => exact .inr ⟨by simp [hk], rfl⟩
  | stmt hk _ _ => exact .inr ⟨by simp_all [definitionKinds], rfl⟩

theorem stmts_of_items (h : List.Forall₂ (Item source) ns items) :
    List.Forall₂ (Becomes source) (ns.filter (·.kind ∉ definitionKinds))
      (items.filterMap ScriptItem.stmt?) := by
  refine forall₂_filter_filterMap h fun n i hi => ?_
  cases hi with
  | func hk _ => exact .inr ⟨by simp [hk, definitionKinds], rfl⟩
  | cls hk _ => exact .inr ⟨by simp [hk, definitionKinds], rfl⟩
  | assign hk ha =>
    have hstmt := (stmt_eq_ok_of_assign hk).mpr ⟨_, ha, rfl⟩
    exact .inl ⟨by simp [hk, definitionKinds], _, rfl, becomes_iff.mpr hstmt⟩
  | stmt hk _ hs => exact .inl ⟨by simpa using hk, _, rfl, becomes_iff.mpr hs⟩

/-- The nodes in front that declare, as many as there are, and the statements that the nodes behind
them become. -/
def Hoisted (source : String) (ns : List Node) (vars : List VarDef) (stmts : List Stmt) : Prop :=
  ∃ front back, ns = front ++ back ∧ List.Forall₂ (Declares source) front vars ∧
    (∀ n, back.head? = some n → ¬ ∃ d, n.Declares source d) ∧
    List.Forall₂ (Becomes source) back stmts

theorem hoist_of_items (h : List.Forall₂ (Item source) ns items) :
    Hoisted source (ns.filter (·.kind ∉ definitionKinds)) (ScriptItem.hoist items).1
      (ScriptItem.hoist items).2 := by
  induction h with
  | nil => exact ⟨[], [], rfl, .nil, by simp, .nil⟩
  | @cons n i ns items hi hrest ih =>
    have hstmts := stmts_of_items (.cons hi hrest)
    cases hi with
    | func hk _ =>
      rw [List.filter_cons_of_neg (by simp [hk, definitionKinds])]
      exact ih
    | cls hk _ =>
      rw [List.filter_cons_of_neg (by simp [hk, definitionKinds])]
      exact ih
    | @assign a hk ha =>
      rw [List.filter_cons_of_pos (by simp [hk, definitionKinds])] at hstmts ⊢
      cases hv : a.varDef? with
      | some d =>
        obtain ⟨front, back, hsplit, hfront, hback, hrest⟩ := ih
        have hd : n.Declares source d := declares_iff.mpr ⟨hk, a, ha, hv⟩
        rw [hsplit, ScriptItem.hoist, hv]
        exact ⟨n :: front, back, rfl, .cons hd hfront, hback, hrest⟩
      -- From the first node on that declares nothing, all nodes become statements.
      | none =>
        have hnot : ¬ ∃ d, n.Declares source d := by
          rintro ⟨d, hd⟩
          obtain ⟨-, a', ha', hd⟩ := declares_iff.mp hd
          obtain rfl : a = a' := Except.ok.inj (ha.symm.trans ha')
          rw [hd] at hv
          cases hv
        rw [ScriptItem.hoist, hv]
        exact ⟨[], _, rfl, .nil, fun m hm => Option.some.inj hm ▸ hnot, hstmts⟩
    | stmt hk ha _ =>
      rw [List.filter_cons_of_pos (by simpa using hk)] at hstmts ⊢
      have hnot : ¬ ∃ d, n.Declares source d := by
        rintro ⟨d, hd⟩
        exact ha (declares_iff.mp hd).1
      exact ⟨[], _, rfl, .nil, fun m hm => Option.some.inj hm ▸ hnot, hstmts⟩

theorem Hoisted.unique {vars vars' : List VarDef} {stmts stmts' : List Stmt}
    (h : Hoisted source ns vars stmts) (h' : Hoisted source ns vars' stmts') :
    vars = vars' ∧ stmts = stmts' := by
  obtain ⟨front, back, hsplit, hfront, hback, hstmts⟩ := h
  obtain ⟨front', back', hsplit', hfront', hback', hstmts'⟩ := h'
  obtain ⟨rfl, rfl⟩ := front_unique (hsplit.symm.trans hsplit') (exists_of_forall₂ hfront)
    (exists_of_forall₂ hfront') hback hback'
  have hdeclares : Relator.RightUnique (Declares source) := fun _ _ _ h h' => h.unique h'
  have hbecomes : Relator.RightUnique (Becomes source) := fun _ _ _ h h' =>
    Except.ok.inj ((becomes_iff.mp h).symm.trans (becomes_iff.mp h'))
  exact ⟨List.right_unique_forall₂' hdeclares hfront hfront',
    List.right_unique_forall₂' hbecomes hstmts hstmts'⟩

/-- Each node among those that are hoisted or become statements can be read. -/
theorem Hoisted.exists_item {vars : List VarDef} {stmts : List Stmt}
    (h : Hoisted source ns vars stmts) (hn : n ∈ ns) (hk : n.kind ∉ definitionKinds) :
    ∃ i, Item source n i := by
  obtain ⟨front, back, rfl, hfront, -, hstmts⟩ := h
  rcases List.mem_append.mp hn with hn | hn
  · obtain ⟨d, hd⟩ := exists_of_forall₂ hfront n hn
    obtain ⟨hassign, a, ha, -⟩ := declares_iff.mp hd
    exact ⟨_, .assign hassign ha⟩
  · obtain ⟨s, hbecomes⟩ := exists_of_forall₂ hstmts n hn
    have hs := becomes_iff.mp hbecomes
    by_cases hassign : n.kind = "AssignStatement"
    · obtain ⟨a, ha, -⟩ := (stmt_eq_ok_of_assign hassign).mp hs
      exact ⟨_, .assign hassign ha⟩
    · exact ⟨_, .stmt hk hassign hs⟩

theorem Hoisted.plain {vars : List VarDef} {stmts : List Stmt} (h : Hoisted source ns vars stmts)
    (hk : ∀ n ∈ ns, n.kind ∉ definitionKinds) : ∀ s ∈ stmts, s.Plain := by
  obtain ⟨front, back, rfl, -, -, hstmts⟩ := h
  have hread := (mapM_eq_ok_iff fun n _ s => becomes_iff.symm).mpr hstmts
  intro s hs
  obtain ⟨n, hn, hstmt⟩ := mapM_ok_mem hread hs
  apply plain_of_kind
  rw [kind_of_stmt hstmt]
  exact hk n (List.mem_append_right front hn)

end Node

namespace Program

open Node (definitionKinds)

/-- A program made of nodes: the functions, the classes, and of the other nodes the declarations in
front and the statements behind them, all in the order of the nodes. -/
structure MadeOf (source : String) (ns : List Node) (p : Program) : Prop where
  funcs : (ns.filter (·.kind = "FunctionDefinition")).mapM (Node.func source) = .ok p.funcs
  classes : (ns.filter (·.kind = "ClassDefinition")).mapM (Node.cls source) = .ok p.classes
  others : Node.Hoisted source (ns.filter (·.kind ∉ definitionKinds)) p.vars p.stmts
  plain : ∀ s ∈ p.stmts, s.Plain
  untyped : p.ty = none

variable {source : String} {ns : List Node}

theorem madeOf_ofItems {items : List ScriptItem}
    (h : List.Forall₂ (Node.Item source) ns items) : (ofItems items).MadeOf source ns where
  funcs := Node.funcs_of_items h
  classes := Node.classes_of_items h
  others := Node.hoist_of_items h
  plain := (Node.hoist_of_items h).plain fun n hn => by simpa using (List.mem_filter.mp hn).2
  untyped := rfl

theorem MadeOf.unique {p p' : Program} (h : p.MadeOf source ns) (h' : p'.MadeOf source ns) :
    p = p' := by
  obtain ⟨hvars, hstmts⟩ := h.others.unique h'.others
  have hfuncs := Except.ok.inj (h.funcs.symm.trans h'.funcs)
  have hclasses := Except.ok.inj (h.classes.symm.trans h'.classes)
  have hty := h.untyped.trans h'.untyped.symm
  cases p
  cases p'
  simp_all

theorem MadeOf.exists_items {p : Program} (h : p.MadeOf source ns) :
    ∃ items, List.Forall₂ (Node.Item source) ns items := by
  have hall : ∀ n ∈ ns, ∃ i, (Walk.scriptItem n.height).reading source n = .ok i := by
    intro n hn
    simp only [Node.scriptItem_eq_ok]
    by_cases hf : n.kind = "FunctionDefinition"
    · obtain ⟨f, -, hread⟩ := mapM_ok_mem_source h.funcs
        (List.mem_filter.mpr ⟨hn, by simpa using hf⟩)
      exact ⟨_, .func hf hread⟩
    by_cases hc : n.kind = "ClassDefinition"
    · obtain ⟨c, -, hread⟩ :=
        mapM_ok_mem_source h.classes (List.mem_filter.mpr ⟨hn, by simpa using hc⟩)
      exact ⟨_, .cls hc hread⟩
    have hk : n.kind ∉ definitionKinds := by simp [definitionKinds, hf, hc]
    exact h.others.exists_item (List.mem_filter.mpr ⟨hn, by simpa using hk⟩) hk
  obtain ⟨items, hitems⟩ := mapM_isOk.mpr hall
  exact ⟨items, (mapM_eq_ok_iff fun n _ i => Node.scriptItem_eq_ok).mp hitems⟩

/-- A tree is read as a program exactly if it is a script that the program is made of. Its children
that are no trivia are read one by one: the functions and the classes are those that are defined, in
order; of the other children in order, the longest front of declarations, which give a plain name a
type and a literal value, becomes the global variables, and each child behind it becomes one
statement, which defines no function or class. -/
theorem ofTree_eq_ok_iff_madeOf (t : Tree) (p : Program) :
    Program.ofTree t = .ok p ↔
      t.root.kind = "Script" ∧ p.MadeOf t.source (Node.meaningful t.root.children) := by
  have hread : Program.ofTree t = (Walk.script t.root.height).reading t.source t.root := by
    rw [ofTree, Cursor.parse_eq]
    rfl
  rw [hread, Node.script_eq_ok]
  refine and_congr_right fun _ => ?_
  constructor
  · rintro ⟨items, hitems, rfl⟩
    exact madeOf_ofItems hitems
  · intro h
    obtain ⟨items, hitems⟩ := h.exists_items
    exact ⟨items, hitems, (madeOf_ofItems hitems).unique h⟩

/-- An assignment of a value to a name of one letter, with the type `int`. -/
def typedNode (start : Nat) (value : Node) : Node :=
  ⟨"AssignStatement", start, value.stop, [
    ⟨"VariableName", start, start + 1, []⟩,
    ⟨"TypeDef", start + 1, start + 5,
      [⟨":", start + 1, start + 2, []⟩, ⟨"VariableName", start + 2, start + 5, []⟩]⟩,
    ⟨"AssignOp", start + 5, start + 6, []⟩,
    value]⟩

/-- Functions and a class stand between and behind the declarations, and the last declaration stands
behind a statement. -/
def mixedTree : Tree where
  source := "x:int=1 f y:int=-2 C z:int=3"
  root :=
    let function : Node := ⟨"FunctionDefinition", 8, 9, [⟨"def", 8, 8, []⟩,
      ⟨"VariableName", 8, 9, []⟩, ⟨"ParamList", 9, 9, []⟩, ⟨"Body", 9, 9, []⟩]⟩
    ⟨"Script", 0, 28, [
      typedNode 0 ⟨"Number", 6, 7, []⟩,
      function,
      ⟨"Comment", 9, 9, []⟩,
      typedNode 10 ⟨"UnaryExpression", 16, 18, [⟨"ArithOp", 16, 17, []⟩, ⟨"Number", 17, 18, []⟩]⟩,
      ⟨"ClassDefinition", 19, 20, [⟨"class", 19, 19, []⟩, ⟨"VariableName", 19, 20, []⟩,
        ⟨"Body", 20, 20, []⟩]⟩,
      ⟨"PassStatement", 20, 20, []⟩,
      function,
      typedNode 21 ⟨"Number", 27, 28, []⟩]⟩

theorem ofTree_eq_ok_iff_madeOf_mixedTree : ∃ p : Program,
    p.MadeOf mixedTree.source (Node.meaningful mixedTree.root.children) ∧
    p.vars = [⟨"x", .int, .number 1, ⟨1, 1, 7⟩⟩, ⟨"y", .int, .number (-2), ⟨1, 11, 8⟩⟩] ∧
    p.funcs.map (·.name) = ["f", "f"] ∧ p.classes.map (·.name) = ["C"] ∧
    p.stmts.map (fun s => (s.kind, s.declarations.map (·.name))) =
      [("PassStatement", []), ("AssignStatement", ["z"])] := by
  have hparts : ((Program.ofTree mixedTree).toOption.map fun p => (p.vars, p.funcs.map (·.name),
      p.classes.map (·.name), p.stmts.map fun s => (s.kind, s.declarations.map (·.name)))) =
        some ([⟨"x", .int, .number 1, ⟨1, 1, 7⟩⟩, ⟨"y", .int, .number (-2), ⟨1, 11, 8⟩⟩],
          ["f", "f"], ["C"], [("PassStatement", []), ("AssignStatement", ["z"])]) := by
    decide +kernel
  cases hp : Program.ofTree mixedTree with
  | error e =>
    rw [hp] at hparts
    cases hparts
  | ok p =>
    rw [hp] at hparts
    obtain ⟨hvars, hfuncs, hclasses, hstmts⟩ : p.vars = _ ∧ p.funcs.map (·.name) = _ ∧
        p.classes.map (·.name) = _ ∧ p.stmts.map _ = _ := by
      simpa only [Prod.mk.injEq] using Option.some.inj hparts
    exact ⟨p, ((ofTree_eq_ok_iff_madeOf mixedTree p).mp hp).2, hvars, hfuncs, hclasses, hstmts⟩

end Program

end TypedScript
