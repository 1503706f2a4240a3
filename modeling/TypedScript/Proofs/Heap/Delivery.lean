import TypedScript.Proofs.Heap.History
import TypedScript.Proofs.Heap.Initialization

/-! # What a construction delivers

Where a construction is used, it delivers its object. Where it is stored under a name, it delivers
what the variable holds once that is done: the object again, or what the constructor of the class
gave back for it. -/

namespace TypedScript

/-! ## Code that runs to its end -/

namespace Machine

variable {σ : Type} {m : Machine σ}

/-- An instruction other than control that is run to its end has gone on behind itself, or it was a
call and has come back. -/
theorem Yields.of_plain {depth : Nat} {f : Func} {a b : Activation} {s s' : Store σ} {e : Ending}
    {code : List Instr} (h : m.Yields depth f a s code e s') {i : Instr} :
    code = [i] → e = .normal b → i.isControl = false →
      m.exec (a.frame f []) i s = .ok (.resume (b.frame f [])) s' ∨
        ∃ x callee args st r, i = .call x ∧ m.import? x = none ∧ m.function? x = some callee ∧
          args.length = callee.params.length ∧ a.stack = args.reverse ++ st ∧
          m.Calls depth callee args s (.ok r) s' ∧
          b = Activation.receive { a with stack := st } r := by
  match h with
  | .nil => exact fun hc => by cases hc
  | .next hone hrest =>
    have ih := hone.of_plain (i := i) (b := b)
    rintro ⟨⟩ rfl hi
    cases hrest
    exact ih rfl rfl hi
  | .stop _ hnot =>
    rintro hc rfl hi
    cases hnot
  | .plain _ hx =>
    rintro ⟨⟩ ⟨⟩ hi
    exact .inl hx
  | .call (r := r) himport hf hn hst hcalls =>
    rintro ⟨⟩ he hi
    cases r with
    | error t => cases he
    | ok r =>
      cases he
      exact .inr ⟨_, _, _, _, r, rfl, himport, hf, hn, hst, hcalls, rfl⟩
  | .trap .. | .iteUnderflow _ | .brIfUnderflow _ | .ret => exact fun hc he => by cases he
  | .block _ | .ite .. | .loopAgain .. | .loopDone .. | .br | .brIf _ =>
    rintro ⟨⟩ he hi
    cases hi

variable {depth : Nat} {f : Func} {a b : Activation} {s s' : Store σ} {i : Instr}
  {code code' rest : List Instr} {site : Site} {x : String} {w : Word}

theorem yields_nil_iff : m.Yields depth f a s [] (.normal b) s' ↔ a = b ∧ s = s' := by
  constructor
  · intro h
    generalize he : Ending.normal b = e at h
    cases h
    cases he
    exact ⟨rfl, rfl⟩
  · rintro ⟨rfl, rfl⟩
    exact .nil

theorem yields_cons_iff : m.Yields depth f a s (i :: rest) (.normal b) s' ↔
    ∃ a₁ s₁, m.Yields depth f a s [i] (.normal a₁) s₁ ∧
      m.Yields depth f a₁ s₁ rest (.normal b) s' := by
  refine ⟨fun h => ?_, fun ⟨_, _, hi, hr⟩ => .next hi hr⟩
  by_cases hrest : rest = []
  · subst hrest
    exact ⟨b, s', h, .nil⟩
  generalize he : Ending.normal b = e at h
  cases h with
  | next hi hr => exact ⟨_, _, hi, hr⟩
  | stop hi hnot =>
    subst he
    cases hnot
  | _ => exact absurd rfl hrest

theorem yields_append_iff : m.Yields depth f a s (code ++ code') (.normal b) s' ↔
    ∃ a₁ s₁, m.Yields depth f a s code (.normal a₁) s₁ ∧
      m.Yields depth f a₁ s₁ code' (.normal b) s' := by
  induction code generalizing a s with
  | nil =>
    refine ⟨fun h => ⟨a, s, .nil, h⟩, fun ⟨a₁, s₁, hnil, h⟩ => ?_⟩
    obtain ⟨rfl, rfl⟩ := yields_nil_iff.mp hnil
    exact h
  | cons i code ih =>
    constructor
    · intro h
      obtain ⟨a₁, s₁, hi, hrest⟩ := yields_cons_iff.mp h
      obtain ⟨a₂, s₂, hcode, hcode'⟩ := ih.mp hrest
      exact ⟨a₂, s₂, .next hi hcode, hcode'⟩
    · rintro ⟨a₂, s₂, hcode, hcode'⟩
      obtain ⟨a₁, s₁, hi, hrest⟩ := yields_cons_iff.mp hcode
      exact .next hi (ih.mpr ⟨a₂, s₂, hrest, hcode'⟩)

theorem Yields.resume (h : m.Yields depth f a s [i] (.normal b) s') (hi : i.isStraight = true) :
    m.exec (a.frame f []) i s = .ok (.resume (b.frame f [])) s' := by
  refine (h.of_plain rfl rfl (Instr.isControl_of_isStraight hi)).resolve_right ?_
  rintro ⟨x, callee, args, st, r, rfl, -⟩
  cases hi

/-- A function of the module is called with operands and leaves its result in place of them. -/
theorem Yields.called {callee : Func} (h : m.Yields depth f a s [.call x] (.normal b) s')
    (hi : m.import? x = none) (hf : m.function? x = some callee) :
    ∃ args st r, args.length = callee.params.length ∧ a.stack = args.reverse ++ st ∧
      m.Calls depth callee args s (.ok r) s' ∧ b = Activation.receive { a with stack := st } r := by
  rcases h.of_plain rfl rfl rfl with hx | ⟨_, callee', args, st, r, ⟨⟩, -, hf', hn, hst, hc, hb⟩
  · -- such a call opens a frame
    by_cases hn : callee.params.length ≤ a.stack.length
    · simp [exec, Machine.call, hi, hf, Activation.frame, Frame.popArgs, hn] at hx
    · simp [exec, Machine.call, hi, hf, Activation.frame, Frame.popArgs, Frame.underflow, hn] at hx
  · obtain rfl := Option.some.inj (hf.symm.trans hf')
    exact ⟨args, st, r, hn, hst, hc, hb⟩

/-- Straight code is run in as many steps as it has instructions. -/
theorem yields_straight_iff {k : Spot} (hcode : ∀ i ∈ code, i.isStraight = true)
    (rest : List Instr) : m.Yields depth k.func a s code (.normal b) s' ↔
      m.after code.length (.next (k.state a.locals a.stack (code ++ rest) s)) =
        .next (k.state b.locals b.stack rest s') := by
  induction code generalizing a s with
  | nil =>
    rw [yields_nil_iff]
    constructor
    · rintro ⟨rfl, rfl⟩
      rfl
    · intro h
      obtain ⟨hls, hst, -, hs⟩ := Spot.state_inj h
      exact ⟨Activation.ext hls hst, hs⟩
  | cons i code ih =>
    have hi := hcode i List.mem_cons_self
    have hcontrol := Instr.isControl_of_isStraight hi
    have hacts : m.Acts k.func a s i := acts_of_plain hcontrol _ _ _
    have ih {a : Activation} {s : Store σ} :=
      ih (a := a) (s := s) fun j hj => hcode j (List.mem_cons_of_mem i hj)
    rw [List.cons_append, List.length_cons, after_next]
    constructor
    · intro h
      obtain ⟨a₁, s₁, hone, hrest⟩ := yields_cons_iff.mp h
      rw [step_resume (hacts.resume_labels (hone.resume hi) _)]
      exact ih.mp hrest
    · intro h
      cases hacts with
      | trap t s₁ hx =>
        rw [step_trap (hx _), after_halt] at h
        cases h
      | resume a₁ s₁ hx =>
        rw [step_resume (hx _)] at h
        exact .next (.plain hcontrol (hx [])) (ih.mpr h)
      | call x callee args st hx =>
        subst hx
        cases hi

end Machine

/-! ## Variables -/

theorem Store.find?_of_setGlobal {σ : Type} {s s' : Store σ} {x : String} {w : Word}
    (h : s.setGlobal x w = .ok s') : s'.globals.find? x = some w := by
  rw [setGlobal] at h
  split at h
  · cases h
  · split at h
    · cases h
      exact Bindings.find?_insert_self _ _ w
    · cases h

namespace Site

variable {σ : Type} {m : Machine σ} {depth : Nat} {f : Func} {a b : Activation} {s s' : Store σ}
  {site : Site} {x : String} {w : Word}

theorem set_straight (site : Site) (x : String) : (site.set x).isStraight = true := by
  rw [set]
  split <;> rfl

theorem get_straight (site : Site) (x : String) : (site.get x).isStraight = true := by
  rw [get]
  split <;> rfl

/-- A variable that is set holds what was on top of the stack. -/
theorem finds_of_set (h : m.Yields depth f a s [site.set x] (.normal b) s') :
    ∃ w, a.stack = w :: b.stack ∧ site.Finds x b.locals s' w := by
  have hset := h.resume (site.set_straight x)
  obtain ⟨ls, st⟩ := a
  obtain ⟨ls', st'⟩ := b
  rw [set] at hset
  cases st with
  | nil => split at hset <;> cases hset
  | cons w st =>
    refine ⟨w, ?_⟩
    rw [Site.Finds]
    split at hset
    · next hl =>
      have hbound : ls.contains x = true := by
        by_contra hfree
        simp [Machine.exec, Activation.frame, Frame.pop, Frame.setLocal, hfree] at hset
      obtain ⟨⟨rfl, rfl⟩, rfl⟩ : (ls.insert x w = ls' ∧ st = st') ∧ s = s' := by
        simpa [Machine.exec, Activation.frame, Frame.pop, Frame.setLocal, hbound] using hset
      exact ⟨rfl, by rw [if_pos hl, Bindings.find?_insert_self]⟩
    · next hl =>
      cases hg : s.setGlobal x w with
      | error t => simp [Machine.exec, Activation.frame, Frame.pop, Exec.update_map, hg] at hset
      | ok s₁ =>
        obtain ⟨⟨rfl, rfl⟩, rfl⟩ : (ls = ls' ∧ st = st') ∧ s₁ = s' := by
          simpa [Machine.exec, Activation.frame, Frame.pop, Exec.update_map, hg] using hset
        exact ⟨rfl, by rw [if_neg hl, Store.find?_of_setGlobal hg]⟩

theorem eq_of_get (h : m.Yields depth f a s [site.get x] (.normal b) s')
    (hx : site.Finds x a.locals s w) : b = ⟨a.locals, w :: a.stack⟩ ∧ s' = s := by
  have hget := h.resume (site.get_straight x)
  obtain ⟨ls, st⟩ := a
  obtain ⟨ls', st'⟩ := b
  rw [Site.Finds] at hx
  suffices hend : (ls = ls' ∧ w :: st = st') ∧ s = s' by
    obtain ⟨⟨rfl, rfl⟩, rfl⟩ := hend
    exact ⟨rfl, rfl⟩
  rw [get] at hget
  split at hget
  · next hl =>
    rw [if_pos hl] at hx
    simpa [Machine.exec, Activation.frame, Frame.getLocal, Frame.push, hx] using hget
  · next hl =>
    rw [if_neg hl] at hx
    simpa [Machine.exec, Activation.frame, Store.getGlobal, Frame.push, hx] using hget

end Site

theorem Site.Finds.unique {σ : Type} {site : Site} {x : String} {ls : Bindings Word} {s : Store σ}
    {w w' : Word} (h : site.Finds x ls s w) (h' : site.Finds x ls s w') : w = w' := by
  rw [Site.Finds] at h h'
  split at h
  · next hl =>
    rw [if_pos hl] at h'
    exact Option.some.inj (h.symm.trans h')
  · next hl =>
    rw [if_neg hl] at h'
    exact Option.some.inj (h.symm.trans h')

/-- An object is stored under a name and handed to a function of the module. Then the variable holds
what that gave back. -/
theorem Machine.Yields.handed {σ : Type} {m : Machine σ} {depth : Nat} {f callee : Func}
    {ls ls' : Bindings Word} {st : List Word} {s s' : Store σ} {site : Site} {x name : String}
    {a w : Word} (h : m.Yields depth f ⟨ls, a :: st⟩ s
      [site.set x, site.get x, .call name, site.set x] (.normal ⟨ls', st⟩) s')
    (hi : m.import? name = none) (hf : m.function? name = some callee)
    (hparams : callee.params ≠ []) (hx : site.Finds x ls' s' w) :
    ∃ s₁ s₂, callee.params.length = 1 ∧ m.Calls depth callee [a] s₁ (.ok (some w)) s₂ := by
  obtain ⟨⟨ls₁, st₁⟩, s₁, hset, hstored⟩ := yields_cons_iff.mp h
  obtain ⟨_, ⟨⟩, hfinds⟩ := Site.finds_of_set hset
  obtain ⟨a₂, s₂, hget, hready⟩ := yields_cons_iff.mp hstored
  obtain ⟨rfl, rfl⟩ := Site.eq_of_get hget hfinds
  obtain ⟨a₃, s₃, hcall, hlast⟩ := yields_cons_iff.mp hready
  obtain ⟨args, st₂, r, hn, hst, hcalls, rfl⟩ := hcall.called hi hf
  obtain ⟨v, hback, hfinds'⟩ := Site.finds_of_set hlast
  obtain rfl := hfinds'.unique hx
  have hpos : 0 < args.length := by
    rw [hn]
    exact List.length_pos_iff.mpr hparams
  have hlen := congrArg List.length hst
  cases r with
  | none =>
    -- the call took an operand, so that none is left to be stored
    have hlen' := congrArg List.length hback
    simp [Activation.receive] at hlen hlen'
    omega
  | some u =>
    obtain ⟨rfl, rfl⟩ : u = v ∧ st₂ = st₁ := by simpa [Activation.receive] using hback
    obtain rfl : args = [a] := by
      have hrev : [a] = args.reverse := List.append_cancel_right hst
      rw [← args.reverse_reverse, ← hrev]
      rfl
    exact ⟨_, _, hn.symm, hcalls⟩

/-! ## Constructions -/

/-- The class has no constructor, or one that leaves its receiver alone and returns the receiver or,
where that is allowed, `None`. -/
def ClassOf.ReturnsReceiver (zero : Bool) (d : ClassDef) : Prop :=
  ∀ g ∈ d.methods, g.name = constructorName →
    ∀ top ∈ g.body, ∀ st : Stmt, st.Within top → st.KeepsReceiver zero

/-- What a construction delivers. Where it is used, that is its object. Where it is stored under a
name, that is what the variable holds when the code for it has been run to its end. -/
inductive Construction.Delivers {σ : Type} (m : Machine σ) (q : Progress σ) (site : Site)
    (d : ClassDef) (c : Construction) : Position → Word → Prop
  | value (hc : c.OfClass m q d) : Delivers m q site d c .value c.address
  | stored {x : String} {note : Note} {code rest : List Instr} {k : Spot} {ls ls' : Bindings Word}
      {st : List Word} {s s' : Store σ} {w : Word} (hc : c.OfClass m q d)
      (hcode : site.storeName x (.construct note d.name) = .ok code)
      (hstart : m.after c.start q = .next (k.state ls st (code ++ rest) s))
      (hrun : m.Yields k.depth k.func ⟨ls, st⟩ s code (.normal ⟨ls', st⟩) s')
      (hx : site.Finds x ls' s' w) : Delivers m q site d c (.stored x) w

section

variable {σ : Type} {m : Machine σ} {q : Progress σ} {d : ClassDef} {c : Construction} {k : Spot}
  {ls : Bindings Word} {st : List Word} {s s' : Store σ} {b : Activation} {tail rest : List Instr}

/-- Behind its allocation a construction goes on with its address. -/
theorem Construction.OfClass.yields_tail (hc : c.OfClass m q d)
    (hstart : m.after c.start q =
      .next (k.state ls st ((ClassLayout.ofClass d).allocate ++ tail ++ rest) s))
    (hrun : m.Yields k.depth k.func ⟨ls, st⟩ s ((ClassLayout.ofClass d).allocate ++ tail)
      (.normal b) s') :
    ∃ s₁, m.Yields k.depth k.func ⟨ls, c.address :: st⟩ s₁ tail (.normal b) s' := by
  obtain ⟨⟨ls₁, st₁⟩, s₁, halloc, htail⟩ := Machine.yields_append_iff.mp hrun
  obtain ⟨hwords, k₂, ls₂, st₂, rest₂, s₂, s₃, hbegin, hfinish⟩ := hc
  rw [allocate_ofClass] at halloc hstart
  have hafter :=
    (Machine.yields_straight_iff (Machine.allocation_straight _) (tail ++ rest)).mp halloc
  rw [List.append_assoc] at hstart
  rw [Construction.finish, Machine.after_add, hwords, hstart, hafter] at hfinish
  rw [hstart] at hbegin
  obtain ⟨rfl, rfl, -⟩ := Spot.state_inj hbegin
  obtain ⟨rfl, rfl, -⟩ := Spot.state_inj hfinish
  exact ⟨s₁, htail⟩

/-- The object is stored under the name and taken up again for the constructor. -/
theorem Construction.OfClass.yields_put {site : Site} {x : String} {ls₁ : Bindings Word}
    {s₁ : Store σ} (hc : c.OfClass m q d)
    (hstart : m.after c.start q = .next (k.state ls st
      ((ClassLayout.ofClass d).allocate ++ [site.set x, site.get x] ++ rest) s))
    (hready : m.after (c.finish + 2) q = .next (k.state ls₁ (c.address :: st) rest s₁)) :
    m.Yields k.depth k.func ⟨ls, st⟩ s
      ((ClassLayout.ofClass d).allocate ++ [site.set x, site.get x])
      (.normal ⟨ls₁, c.address :: st⟩) s₁ := by
  have hstraight : ∀ i ∈ (ClassLayout.ofClass d).allocate ++ [site.set x, site.get x],
      i.isStraight = true := by
    intro i hi
    rcases List.mem_append.mp hi with hi | hi
    · rw [allocate_ofClass] at hi
      exact Machine.allocation_straight _ i hi
    · rcases List.mem_pair.mp hi with rfl | rfl
      · exact site.set_straight x
      · exact site.get_straight x
  have hlen : c.finish + 2 = c.start +
      ((ClassLayout.ofClass d).allocate ++ [site.set x, site.get x]).length := by
    rw [Construction.finish, hc.1, allocate_ofClass, List.length_append]
    rfl
  rw [hlen, Machine.after_add, hstart] at hready
  exact (Machine.yields_straight_iff hstraight _).mpr hready

/-- What the constructor gives back for the object is delivered in place of it. -/
theorem Construction.delivers_of_calls {site : Site} {x : String} {init : Func}
    {ls₁ ls' : Bindings Word} {s₁ s₂ : Store σ} {w : Word}
    (hl : site.layouts.find? d.name = some (ClassLayout.ofClass d))
    (hk : (ClassLayout.ofClass d).hasConstructor = true)
    (hi : m.import? (Symbol.method d.name constructorName) = none)
    (hf : m.function? (Symbol.method d.name constructorName) = some init)
    (hn : init.params.length = 1) (hc : c.OfClass m q d)
    (hstart : m.after c.start q =
      .next (k.state ls st ((Position.stored x).code site d ++ rest) s))
    (hready : m.after (c.finish + 2) q = .next (k.state ls₁ (c.address :: st)
      (.call (Symbol.method d.name constructorName) :: site.set x :: rest) s₁))
    (hcalls : m.Calls k.depth init [c.address] s₁ (.ok (some w)) s₂)
    (hset : m.step (k.state ls₁ (w :: st) (site.set x :: rest) s₂) =
      .next (k.state ls' st rest s')) : c.Delivers m q site d (.stored x) w := by
  let name := Symbol.method d.name constructorName
  have hcode : site.storeName x (.construct ⟨default, none⟩ d.name) =
      .ok ((Position.stored x).code site d) :=
    Site.storeName_construct.mpr ⟨_, hl, by simp [Position.code, hk]⟩
  have hsplit : (Position.stored x).code site d =
      ((ClassLayout.ofClass d).allocate ++ [site.set x, site.get x]) ++
        ([.call name] ++ [site.set x]) := by
    simp [Position.code, name]
  have hbegin := hstart
  rw [hsplit, List.append_assoc] at hbegin
  have hput := hc.yields_put hbegin hready
  have hcall : m.Yields k.depth k.func ⟨ls₁, c.address :: st⟩ s₁ [.call name]
      (.normal ⟨ls₁, w :: st⟩) s₂ := by
    have hlen : [c.address].length = init.params.length := hn.symm
    have hst : (Activation.mk ls₁ (c.address :: st)).stack = [c.address].reverse ++ st := rfl
    exact .call hi hf hlen hst hcalls
  have hlast : m.Yields k.depth k.func ⟨ls₁, w :: st⟩ s₂ [site.set x] (.normal ⟨ls', st⟩) s' :=
    (Machine.yields_straight_iff (by simp [site.set_straight]) rest).mpr hset
  obtain ⟨_, ⟨⟩, hfinds⟩ := Site.finds_of_set hlast
  refine .stored hc hcode hstart ?_ hfinds
  rw [hsplit]
  exact Machine.yields_append_iff.mpr
    ⟨_, _, hput, Machine.yields_append_iff.mpr ⟨_, _, hcall, hlast⟩⟩

end

namespace Program

variable {σ : Type} {p t : Program} {o : Options} {md : Module}

/-- A construction delivers its object unless the constructor returns `None`. -/
theorem delivers_yieldable (ht : p.check = .ok t) (hm : t.lower o = .ok md) (hd : p.Dotless)
    {host : Host σ} {c : Config} {q : Progress σ} {slots : List String} {d : ClassDef}
    (hclass : d ∈ t.classes) {zero : Bool} (hkeeps : d.ReturnsReceiver zero) {pos : Position}
    {a : Construction} {w : Word}
    (h : a.Delivers (Machine.ofModule md c host) q ⟨Layouts.ofClasses t.classes, slots⟩ d pos w) :
    Yieldable zero a.address w := by
  have hp := check_elaborated ht
  have he := hp.emitted ((check_sameOutline ht).dotless hd) hm
  cases h with
  | value hc => exact .inl rfl
  | @stored x note code rest k ls ls' st s s' w hc hcode hstart hrun hx =>
    have hlayout : (Layouts.ofClasses t.classes).find? d.name = some (ClassLayout.ofClass d) :=
      Layouts.find?_ofClasses hp.classNames hclass
    obtain ⟨l, hl, rfl⟩ := Site.storeName_construct.mp hcode
    obtain rfl : ClassLayout.ofClass d = l := Option.some.inj (hlayout.symm.trans hl)
    rw [List.append_assoc (ClassLayout.allocate _)] at hstart hrun
    obtain ⟨s₁, htail⟩ := hc.yields_tail hstart hrun
    cases hk : (ClassLayout.ofClass d).hasConstructor with
    | false =>
      rw [hk, if_neg (by decide), List.append_nil] at htail
      obtain ⟨_, ⟨⟩, hfinds⟩ := Site.finds_of_set htail
      exact .inl (hx.unique hfinds)
    | true =>
      rw [hk, if_pos rfl] at htail
      obtain ⟨g, hg, hname⟩ := List.any_eq_true.mp hk
      have hname : g.name = constructorName := by simpa using hname
      have hreceiver := hp.receivers d hclass g hg
      obtain ⟨init, hinit, hlower, hsymbol, hparams⟩ := exists_constructor he hclass hg hname
      rw [← hsymbol] at htail
      have hsome : init.params ≠ [] := by
        rw [← List.length_pos_iff, hparams, ← List.length_map (·.name)]
        exact List.length_pos_of_mem hreceiver
      obtain ⟨s₂, s₃, hlen, hcalls⟩ :=
        htail.handed (he.import?_eq_none hinit) (he.function?_eq hinit) hsome hx
      have hinitializer : (Machine.ofModule md c host).Initializer zero init.name init :=
        initializer he hinit hlower hname hreceiver (hparams ▸ hlen) (hkeeps g hg hname)
      have hresult := hcalls.handsBack hinitializer.result hinitializer.body
        (hinitializer.receiver a.address)
      rcases hresult with ⟨trap, hfail⟩ | ⟨v, hback, hyield⟩
      · cases hfail
      · cases hback
        exact hyield

end Program

end TypedScript
