import TypedScript.Proofs.Lowering.Inversion
import TypedScript.Proofs.Typing.Elaboration

/-! # Code for every checked program

An elaborated program is given code unless it prints an object, and then the fault names a print
expression that does so. -/

namespace TypedScript

/-- The layouts hold every class and every field of the vocabulary. -/
structure Layouts.Cover (ls : Layouts) (v : Vocabulary) : Prop where
  classes : ∀ c, v.Constructs c → ∃ l, ls.find? c = some l
  fields : ∀ c f, v.HasField c f → ∃ l slot, ls.find? c = some l ∧ l.field? f = some slot

namespace Layouts

theorem find?_ofClasses {cs : List ClassDef} {c : ClassDef} (hn : (cs.map (·.name)).Nodup)
    (hc : c ∈ cs) : (ofClasses cs).find? c.name = some (ClassLayout.ofClass c) := by
  refine Bindings.find?_ofList ?_ (List.mem_map.mpr ⟨c, hc, rfl⟩)
  rw [List.map_map]
  exact hn

end Layouts

namespace ClassLayout

theorem field?_ofClass {c : ClassDef} {f : String} (h : f ∈ c.fields.map (·.name)) :
    ∃ slot, (ofClass c).field? f = some slot := by
  rw [← Option.isSome_iff_exists, field?, List.find?_isSome]
  obtain ⟨d, hd, rfl⟩ := List.mem_map.mp h
  obtain ⟨i, hi, rfl⟩ := List.mem_iff_getElem.mp hd
  refine ⟨⟨c.fields[i].name, i, c.fields[i].value⟩, ?_, by simp⟩
  exact List.mem_mapIdx.mpr ⟨i, hi, rfl⟩

end ClassLayout

theorem Program.Elaborated.layouts {t : Program} (ht : t.Elaborated) (f : Option FuncDef) :
    (Layouts.ofClasses t.classes).Cover (t.vocabulary f) := by
  constructor
  · rintro _ ⟨h, hh, rfl, -⟩
    obtain ⟨c, hc, rfl⟩ := List.mem_map.mp hh
    exact ⟨_, Layouts.find?_ofClasses ht.classNames hc⟩
  · rintro _ f ⟨h, hh, rfl, hf⟩
    obtain ⟨c, hc, rfl⟩ := List.mem_map.mp hh
    obtain ⟨slot, hs⟩ := ClassLayout.field?_ofClass hf
    exact ⟨_, slot, Layouts.find?_ofClasses ht.classNames hc, hs⟩

/-- The fault of a print expression, one of `parts`, whose argument is an object. -/
def PrintsObject (parts : List Expr) (e : Located LoweringError) : Prop :=
  ∃ n a c, Expr.print n [a] ∈ parts ∧ a.ty? = some (.object c) ∧
    e = ⟨.unsupportedPrint (.object c), n.span⟩

/-- No print expression of `parts` has an object as an argument. -/
def PrintsNoObject (parts : List Expr) : Prop :=
  ∀ n args, Expr.print n args ∈ parts → ∀ a ∈ args, ∀ c, a.ty? ≠ some (.object c)

/-- Code is given to all of `parts`, or an object is printed among them. -/
def Settles {α : Type} (parts : List Expr) : Lowered α → Prop
  | .ok _ => PrintsNoObject parts
  | .error e => PrintsObject parts e

namespace Settles

variable {α β : Type} {ps qs : List Expr} {r : Lowered α}

theorem congr (h : Settles ps r) (hm : ∀ q, q ∈ ps ↔ q ∈ qs) : Settles qs r := by
  cases r with
  | ok a => exact fun n args hq => h n args ((hm _).mpr hq)
  | error e =>
    obtain ⟨n, a, c, hp, hty, he⟩ := h
    exact ⟨n, a, c, (hm _).mp hp, hty, he⟩

theorem done (a : α) : Settles [] (.ok a) := by
  intro n args h
  simp at h

theorem bind {f : α → Lowered β} (h : Settles ps r) (hf : ∀ a, r = .ok a → Settles qs (f a)) :
    Settles (ps ++ qs) (r >>= f) := by
  cases r with
  | error e =>
    obtain ⟨n, a, c, hp, hty, he⟩ := h
    exact ⟨n, a, c, List.mem_append_left _ hp, hty, he⟩
  | ok a =>
    have hq := hf a rfl
    rw [ok_bind]
    cases hr : f a with
    | ok b =>
      rw [hr] at hq
      intro n args hm
      rcases List.mem_append.mp hm with hm | hm
      · exact h n args hm
      · exact hq n args hm
    | error e =>
      rw [hr] at hq
      obtain ⟨n, a, c, hp, hty, he⟩ := hq
      exact ⟨n, a, c, List.mem_append_right _ hp, hty, he⟩

/-- What is done with the result afterwards cannot fail. -/
theorem map {f : α → β} (h : Settles ps r) : Settles ps (r >>= fun a => .ok (f a)) := by
  simpa using h.bind fun a _ => done (f a)

theorem cons {e : Expr} (he : ∀ n args, e ≠ .print n args) (h : Settles ps r) :
    Settles (e :: ps) r := by
  cases r with
  | ok a =>
    intro n args hm
    rcases List.mem_cons.mp hm with hm | hm
    · exact absurd hm.symm (he n args)
    · exact h n args hm
  | error e =>
    obtain ⟨n, a, c, hp, hty, he⟩ := h
    exact ⟨n, a, c, List.mem_cons_of_mem _ hp, hty, he⟩

end Settles

namespace Expr

variable {v : Vocabulary} {s : Site}

theorem lowerArgs_settles {args : List Expr} (h : ∀ a ∈ args, Settles a.parts (a.lower s)) :
    Settles (partsList args) (lowerArgs s args) := by
  induction args with
  | nil => exact .done []
  | cons a rest ih =>
    simp only [lowerArgs, partsList]
    refine (h a List.mem_cons_self).bind fun c _ => ?_
    exact (ih fun b hb => h b (List.mem_cons_of_mem a hb)).map

theorem print_settles {n : Note} {e : Expr} {ty : Ty} (hty : e.ty? = some ty)
    (h : Settles e.parts (e.lower s)) :
    Settles (print n [e]).parts ((print n [e]).lower s) := by
  simp only [lower, parts, partsList, List.append_nil, checkedType, hty, ok_bind]
  cases ty with
  | object c => exact ⟨n, e, c, List.mem_cons_self, hty, rfl⟩
  | int | bool | none =>
    simp only [printer, ok_bind]
    cases hr : e.lower s with
    | error err =>
      rw [hr] at h
      obtain ⟨m, a, c, hp, hta, he⟩ := h
      exact ⟨m, a, c, List.mem_cons_of_mem _ hp, hta, he⟩
    | ok code =>
      rw [hr] at h
      intro m args hm
      rcases List.mem_cons.mp hm with hm | hm
      · injection hm with _ hargs
        simp [hargs, hty]
      · exact h m args hm

theorem Elaborated.lower_settles {e : Expr} (he : e.Elaborated v) (hc : s.layouts.Cover v) :
    Settles e.parts (e.lower s) := by
  induction he with
  | @literal n l =>
    cases l <;> simp only [lower, parts] <;> exact .cons (by simp) (.done _)
  | none => simp only [lower, parts]; exact .cons (by simp) (.done _)
  | self => simp only [lower, parts]; exact .cons (by simp) (.done _)
  | plain => simp only [lower, parts]; exact .cons (by simp) (.done _)
  | @unary n op e _ ih =>
    cases op <;> simp only [lower, parts] <;> exact .cons (by simp) ih.map
  | binary _ _ ihl ihr =>
    simp only [lower, parts]
    exact .cons (by simp) (ihl.bind fun _ _ => ihr.map)
  | call _ _ ih =>
    simp only [lower, parts]
    exact .cons (by simp) (lowerArgs_settles ih).map
  | builtin1 _ ih =>
    simp only [lower, parts]
    exact .cons (by simp) ih.map
  | builtin2 _ _ ihl ihr =>
    simp only [lower, parts]
    exact .cons (by simp) (ihl.bind fun _ _ => ihr.map)
  | construct known =>
    obtain ⟨l, hl⟩ := hc.classes _ known
    simp only [lower, parts, Layouts.get_eq_ok_iff.mpr hl, ok_bind]
    exact .cons (by simp) (.done _)
  | field ty known _ ih =>
    obtain ⟨l, slot, hl, hf⟩ := hc.fields _ _ known
    simp only [lower, parts, receiverClass_eq_ok_iff.mpr ty,
      Layouts.field_eq_ok_iff.mpr ⟨l, hl, hf⟩, ok_bind]
    exact .cons (by simp) ih.map
  | method ty _ _ _ iho iha =>
    simp only [lower, parts, receiverClass_eq_ok_iff.mpr ty, ok_bind]
    exact .cons (by simp) (iho.bind fun _ _ => (lowerArgs_settles iha).map)
  | print hty _ ih => exact print_settles hty ih

end Expr

namespace Site

variable {v : Vocabulary} {s : Site}

theorem storeName_settles {x : String} {value : Expr} (hv : value.Elaborated v)
    (hc : s.layouts.Cover v) : Settles value.parts (s.storeName x value) := by
  unfold storeName
  rw [← List.append_nil value.parts]
  refine (hv.lower_settles hc).bind fun code hcode => ?_
  dsimp only
  split
  · exact .done []
  · split
    · cases hv with
      | construct known =>
        obtain ⟨l, hl⟩ := hc.classes _ known
        rw [Layouts.get_eq_ok_iff.mpr hl, ok_bind]
        split <;> exact .done _
    · exact .done _

end Site

namespace Target

theorem lower_settles {v : Vocabulary} {s : Site} {span : Span} {value : Expr} {target : Target}
    (ht : target.Elaborated v) (hv : value.Elaborated v) (hc : s.layouts.Cover v) :
    Settles (target.parts ++ value.parts) (target.lower s span value) := by
  cases ht with
  | name known => exact Site.storeName_settles hv hc
  | field ty known ho =>
    obtain ⟨l, slot, hl, hf⟩ := hc.fields _ _ known
    simp only [lower, parts, Expr.receiverClass_eq_ok_iff.mpr ty,
      Layouts.field_eq_ok_iff.mpr ⟨l, hl, hf⟩, ok_bind]
    exact (ho.lower_settles hc).map.bind fun _ _ => (hv.lower_settles hc).map.map

end Target

namespace Stmt

variable {v : Vocabulary} {s : Site}

theorem lowerBody_settles {ss : List Stmt} (h : ∀ st ∈ ss, Settles st.parts (st.lower s)) :
    Settles (partsBody ss) (lowerBody s ss) := by
  induction ss with
  | nil => exact .done []
  | cons st rest ih =>
    simp only [lowerBody, partsBody]
    refine (h st List.mem_cons_self).bind fun c _ => ?_
    exact (ih fun st' hst => h st' (List.mem_cons_of_mem st hst)).map

theorem lowerElseIf_settles {elseIf : Option (Expr × List Stmt)} {code : List Instr}
    (hc : ∀ c b, elseIf = some (c, b) → Settles c.parts (c.lower s))
    (hb : ∀ c b, elseIf = some (c, b) → ∀ st ∈ b, Settles st.parts (st.lower s)) :
    Settles (partsElseIf elseIf) (lowerElseIf s elseIf code) := by
  match elseIf, hc, hb with
  | none, _, _ => exact .done code
  | some (c, b), hc, hb =>
    simp only [lowerElseIf, partsElseIf]
    exact (hc c b rfl).map.bind fun _ _ => (lowerBody_settles (hb c b rfl)).map

theorem lowerOtherwise_settles {otherwise : Option (List Stmt)}
    (hb : ∀ b, otherwise = some b → ∀ st ∈ b, Settles st.parts (st.lower s)) :
    Settles (partsOtherwise otherwise) (lowerOtherwise s otherwise) := by
  match otherwise, hb with
  | none, _ => exact .done []
  | some b, hb => exact lowerBody_settles (hb b rfl)

theorem Elaborated.lower_settles {st : Stmt} (hs : st.Elaborated v) (hc : s.layouts.Cover v) :
    Settles st.parts (st.lower s) := by
  induction hs with
  | assign ht hv =>
    simp only [lower, parts]
    exact Target.lower_settles ht hv hc
  | branch hcond _ hec _ _ ihb ihe iho =>
    simp only [lower, parts]
    -- The arms are given code before the condition, the last of them first.
    refine ((lowerBody_settles ihb).bind fun _ _ => (lowerOtherwise_settles iho).bind fun _ _ =>
      (lowerElseIf_settles (fun c b he => (hec c b he).lower_settles hc) ihe).bind fun _ _ =>
        (hcond.lower_settles hc).map.map).congr ?_
    intro q
    simp only [List.mem_append]
    tauto
  | loop hcond _ ih =>
    simp only [lower, parts]
    exact (hcond.lower_settles hc).map.bind fun _ _ => (lowerBody_settles ih).map
  | pass => exact .done _
  | ret _ hv =>
    simp only [lower, parts]
    exact (hv.lower_settles hc).map.map
  | expr hv =>
    simp only [lower, parts]
    exact (hv.lower_settles hc).map.map
  | declare _ hv =>
    simp only [lower, parts]
    exact Site.storeName_settles hv hc

end Stmt

theorem mapM_settles {α β : Type} {f : α → Lowered β} {parts : α → List Expr} {xs : List α}
    (h : ∀ x ∈ xs, Settles (parts x) (f x)) : Settles (xs.flatMap parts) (xs.mapM f) := by
  induction xs with
  | nil => exact .done []
  | cons x rest ih =>
    rw [List.mapM_cons, List.flatMap_cons]
    refine (h x List.mem_cons_self).bind fun _ _ => ?_
    exact (ih fun y hy => h y (List.mem_cons_of_mem x hy)).map

namespace Program

variable {p t : Program}

theorem Elaborated.lower_settles (ht : t.Elaborated) (o : Options) :
    Settles t.parts (t.lower o) := by
  have hbody : ∀ f ∈ t.bodies, ∀ className,
      Settles (Stmt.partsBody f.body)
        (FuncOf.lower (Layouts.ofClasses t.classes) className f) := by
    intro f hf className
    exact (Stmt.lowerBody_settles fun st hst =>
      (ht.bodies f hf st hst).lower_settles (ht.layouts (some f))).map
  have hfuncs : Settles (t.funcs.flatMap fun f => Stmt.partsBody f.body)
      (t.funcs.mapM (FuncOf.lower (Layouts.ofClasses t.classes) none)) :=
    mapM_settles fun f hf => hbody f (List.mem_append_left _ hf) none
  have hmethods : Settles (t.classes.flatMap fun c => c.methods.flatMap fun m =>
      Stmt.partsBody m.body) (t.classes.mapM (ClassOf.lower (Layouts.ofClasses t.classes))) :=
    mapM_settles fun c hc => mapM_settles fun m hm =>
      hbody m (List.mem_append_right _ (List.mem_flatMap.mpr ⟨c, hc, hm⟩)) (some c.name)
  have hentry : Settles (Stmt.partsBody t.stmts)
      (t.lowerEntry (Layouts.ofClasses t.classes) o) :=
    (Stmt.lowerBody_settles fun st hst =>
      (ht.stmts st hst).lower_settles (ht.layouts none)).map
  refine (hfuncs.bind fun _ _ => hmethods.bind fun _ _ => hentry.map).congr fun q => ?_
  simp only [Program.parts, Program.bodies, List.flatMap_append, List.flatMap_assoc,
    List.append_assoc]

/-- Of the programs that are checked, exactly those that print an object are refused code. -/
theorem lower_fails_iff (h : p.check = .ok t) (o : Options) :
    ((∃ e, t.lower o = .error e) ↔
      ∃ n args a c, Expr.print n args ∈ t.parts ∧ a ∈ args ∧ a.ty? = some (.object c)) ∧
    ∀ e, t.lower o = .error e → ∃ n a c, Expr.print n [a] ∈ t.parts ∧
      a.ty? = some (.object c) ∧ e = ⟨.unsupportedPrint (.object c), n.span⟩ := by
  have settled := (check_elaborated h).lower_settles o
  have hfault : ∀ e, t.lower o = .error e → PrintsObject t.parts e := by
    intro e he
    rwa [he] at settled
  refine ⟨⟨?_, ?_⟩, hfault⟩
  · rintro ⟨e, he⟩
    obtain ⟨n, a, c, hp, hty, -⟩ := hfault e he
    exact ⟨n, [a], a, c, hp, List.mem_singleton_self a, hty⟩
  · rintro ⟨n, args, a, c, hp, ha, hty⟩
    cases hl : t.lower o with
    | error e => exact ⟨e, rfl⟩
    | ok m =>
      rw [hl] at settled
      exact absurd hty (settled n args hp a ha c)

/-- Prints a new point in an arm of a branch. -/
def pointPrinter : Program :=
  let note : Note := ⟨default, none⟩
  { vars := [⟨"ready", .bool, .bool true, default⟩]
    funcs := [{
      name := "show", params := [⟨"p", .object "Point", default⟩], ret := .none, span := default
      body := [.branch default (.name note (.plain "ready")) [.pass default] none
        (some [.expr (.print note [.name note (.plain "p")])])] }]
    classes := [⟨"Point", [⟨"x", .int, .number 3, default⟩], [], default⟩]
    stmts := [.expr (.call note "show" [.call note "Point" []])]
    ty := none }

theorem lower_pointPrinter : ∃ t e c, pointPrinter.check = .ok t ∧ t.lower {} = .error e ∧
    e.fault = .unsupportedPrint (.object c) := by
  have refused := lower_fails_iff (p := pointPrinter) rfl {}
  obtain ⟨e, he⟩ := refused.1.mpr
    ⟨_, _, _, "Point", List.mem_cons_of_mem _ List.mem_cons_self, List.mem_cons_self, rfl⟩
  obtain ⟨n, a, c, -, -, hfault⟩ := refused.2 e he
  exact ⟨_, e, c, rfl, he, congrArg Located.fault hfault⟩

end Program

end TypedScript
