import TypedScript.Proofs.Evaluation.Follows
import TypedScript.Proofs.Evaluation.Words

/-! # Built-in functions on the machine

The function of each built-in runs to its end and leaves the value of the built-in. -/

namespace TypedScript

variable {σ : Type} {m : Machine σ} {k : Spot} {ls : Bindings Word} {s : Store σ}

/-- The last value that is left in a body of a function is what the function gives back. -/
theorem Machine.step_end_done {st : List Word} (ho : k.outer = []) :
    m.step (k.state ls st [] s) = .next (k.done ls st s) := by
  rw [step_end, ho]
  rfl

theorem Word.toInt_ofInt_max (a b : Word) :
    (Int32.ofInt (max a.toInt b.toInt)).toInt = max a.toInt b.toInt := by
  rcases Int.le_total a.toInt b.toInt with hle | hle
  · rw [Int.max_eq_right hle, Int32.ofInt_toInt]
  · rw [Int.max_eq_left hle, Int32.ofInt_toInt]

theorem Word.toInt_ofInt_min (a b : Word) :
    (Int32.ofInt (min a.toInt b.toInt)).toInt = min a.toInt b.toInt := by
  rcases Int.le_total a.toInt b.toInt with hle | hle
  · rw [Int.min_eq_left hle, Int32.ofInt_toInt]
  · rw [Int.min_eq_right hle, Int32.ofInt_toInt]

namespace Builtin

def powRound : List Instr :=
  [.localGet "exp", .const 0, .numeric .leS, .brIf 1,
    .localGet "acc", .localGet "base", .numeric .mul, .localSet "acc",
    .localGet "exp", .const 1, .numeric .sub, .localSet "exp",
    .br 0]

theorem abs_reaches {w : Word} (ho : k.outer = []) (hw : ls.find? "x" = some w) :
    m.Reaches (.next (k.state ls [] absBody s))
      (.next (k.done ls [Builtin1.abs.apply w] s)) := by
  have hvalue : Builtin1.abs.apply w = if w < 0 then 0 - w else w := by
    rw [Builtin1.apply]
    split
    · next hneg =>
      rw [Int32.lt_iff_toInt_lt, Int32.toInt_zero] at hneg
      rw [Word.zero_sub_eq, Int.ofNat_natAbs_of_nonpos (by omega)]
    · next hneg =>
      rw [Int32.lt_iff_toInt_lt, Int32.toInt_zero] at hneg
      rw [Int.natAbs_of_nonneg (by omega), Int32.ofInt_toInt]
  refine .head (Machine.step_localGet hw) (.head Machine.step_const
    (.head Machine.step_numeric ?_))
  simp only [NumericOp.eval]
  refine .head Machine.step_ite ?_
  by_cases hneg : w < 0
  · rw [hvalue, if_pos hneg, if_pos (by simp [Word.ofBool, hneg])]
    exact .head Machine.step_const (.head (Machine.step_localGet hw)
      (.head Machine.step_numeric (.step Machine.step_ret)))
  · rw [hvalue, if_neg hneg, if_neg (by simp [Word.ofBool, hneg])]
    exact .head Machine.step_end_inside (.head (Machine.step_localGet hw)
      (.step (Machine.step_end_done ho)))

theorem pick_reaches {cmp : NumericOp} {a b : Word} {c : Bool} (ho : k.outer = [])
    (ha : ls.find? "a" = some a) (hb : ls.find? "b" = some b)
    (hc : cmp.eval a b = .ok (Word.ofBool c)) :
    m.Reaches (.next (k.state ls [] (pickBody cmp) s))
      (.next (k.done ls [if c then a else b] s)) := by
  refine .head (Machine.step_localGet ha) (.head (Machine.step_localGet hb)
    (.head Machine.step_numeric ?_))
  rw [hc]
  refine .head Machine.step_ite ?_
  cases c with
  | true => exact .head (Machine.step_localGet ha) (.step Machine.step_ret)
  | false =>
    exact .head Machine.step_end_inside (.head (Machine.step_localGet hb)
      (.step (Machine.step_end_done ho)))

/-- One round of the power's loop after the other, until the exponent is used up. -/
theorem pow_loop {b : Word} {rest : List Instr} (n : Nat) (e a : Word) (ls : Bindings Word)
    (hn : e.toInt.toNat = n) (hbase : ls.find? "base" = some b) (hexp : ls.find? "exp" = some e)
    (hacc : ls.find? "acc" = some a) :
    ∃ ls', ls'.find? "acc" = some (a * Int32.ofInt (b.toInt ^ n)) ∧
      m.Reaches (.next (((k.inside rest none).inside [] (some powRound)).state ls [] powRound s))
        (.next (k.state ls' [] rest s)) := by
  induction n generalizing e a ls with
  | zero =>
    have hle : e ≤ 0 := by
      rw [Int32.le_iff_toInt_le, Int32.toInt_zero]
      omega
    refine ⟨ls, by simpa using hacc, ?_⟩
    refine .head (Machine.step_localGet hexp) (.head Machine.step_const
      (.head Machine.step_numeric ?_))
    simp only [NumericOp.eval, Word.ofBool, hle, decide_true, if_true]
    exact .step ((Machine.step_brIf (by decide)).trans Machine.step_br_one)
  | succ n ih =>
    have hpos : 0 < e.toInt := by omega
    have hle : ¬ e ≤ 0 := by
      rw [Int32.le_iff_toInt_le, Int32.toInt_zero]
      omega
    -- the exponent is positive, so that one less does not wrap around
    have hdown : (e - 1).toInt.toNat = n := by
      have hsub : (e - 1).toInt = e.toInt - 1 := by
        rw [Int32.toInt_sub, Int32.toInt_one]
        have hlt : e.toInt < 2 ^ 31 := Int32.toInt_lt e
        exact Int.bmod_eq_of_le (by omega) (by omega)
      omega
    have hpow : a * b * Int32.ofInt (b.toInt ^ n) = a * Int32.ofInt (b.toInt ^ (n + 1)) := by
      rw [Int.pow_succ, Int32.ofInt_mul, Int32.ofInt_toInt, Int32.mul_assoc, Int32.mul_comm b]
    obtain ⟨ls', hacc', hreach⟩ := ih (e - 1) (a * b)
      ((ls.insert "acc" (a * b)).insert "exp" (e - 1)) hdown
      (by simp [Bindings.find?_insert, hbase]) (by simp) (by simp [Bindings.find?_insert])
    refine ⟨ls', by rw [hacc', hpow], ?_⟩
    refine .head (Machine.step_localGet hexp) (.head Machine.step_const
      (.head Machine.step_numeric ?_))
    simp only [NumericOp.eval, Word.ofBool, hle, decide_false, Bool.false_eq_true, if_false]
    refine .head Machine.step_brIf_zero (.head (Machine.step_localGet hacc)
      (.head (Machine.step_localGet hbase) (.head Machine.step_numeric ?_)))
    simp only [NumericOp.eval]
    have hacc : ls.contains "acc" = true := Bindings.contains_iff.mpr ⟨a, hacc⟩
    have hexp' : (ls.insert "acc" (a * b)).find? "exp" = some e := by
      simp [Bindings.find?_insert, hexp]
    refine .head (Machine.step_localSet hacc) (.head (Machine.step_localGet hexp')
      (.head Machine.step_const (.head Machine.step_numeric ?_)))
    simp only [NumericOp.eval]
    exact .head (Machine.step_localSet (Bindings.contains_iff.mpr ⟨e, hexp'⟩))
      (.head Machine.step_br_zero hreach)

theorem pow_reaches {b e : Word} (ho : k.outer = []) (hbase : ls.find? "base" = some b)
    (hexp : ls.find? "exp" = some e) (hacc : ls.contains "acc" = true) :
    ∃ ls', m.Reaches (.next (k.state ls [] powBody s))
      (.next (k.done ls' [Builtin2.pow.apply b e] s)) := by
  obtain ⟨ls', hacc', hreach⟩ := pow_loop (m := m) (k := k) (s := s) (b := b)
    e.toInt.toNat e 1 (ls.insert "acc" 1) rfl (by simp [Bindings.find?_insert, hbase])
    (by simp [Bindings.find?_insert, hexp]) (by simp)
  rw [Int32.one_mul] at hacc'
  refine ⟨ls', .head Machine.step_const (.head (Machine.step_localSet hacc)
    (.head Machine.step_block (.head Machine.step_loop (hreach.trans ?_))))⟩
  exact .head (Machine.step_localGet hacc') (.step (Machine.step_end_done ho))

end Builtin

theorem Builtin1.func_reaches (fn : Builtin1) (a : Word) (ho : k.outer = []) :
    ∃ ls, m.Reaches
      (.next (k.state (Frame.enter fn.builtin.func [a]).locals [] fn.builtin.func.body s))
      (.next (k.done ls [fn.apply a] s)) := by
  cases fn with
  | abs => exact ⟨_, Builtin.abs_reaches ho rfl⟩

theorem Builtin2.func_reaches (fn : Builtin2) (a b : Word) (ho : k.outer = []) :
    ∃ ls, m.Reaches
      (.next (k.state (Frame.enter fn.builtin.func [a, b]).locals [] fn.builtin.func.body s))
      (.next (k.done ls [fn.apply a b] s)) := by
  cases fn with
  | max =>
    have hvalue : Builtin2.max.apply a b = if decide (a > b) then a else b := by
      simp only [apply, gt_iff_lt, Int32.lt_iff_toInt_lt, decide_eq_true_eq]
      split
      · rw [Int.max_eq_left (by omega), Int32.ofInt_toInt]
      · rw [Int.max_eq_right (by omega), Int32.ofInt_toInt]
    rw [hvalue]
    exact ⟨_, Builtin.pick_reaches ho rfl rfl rfl⟩
  | min =>
    have hvalue : Builtin2.min.apply a b = if decide (a < b) then a else b := by
      simp only [apply, Int32.lt_iff_toInt_lt, decide_eq_true_eq]
      split
      · rw [Int.min_eq_left (by omega), Int32.ofInt_toInt]
      · rw [Int.min_eq_right (by omega), Int32.ofInt_toInt]
    rw [hvalue]
    exact ⟨_, Builtin.pick_reaches ho rfl rfl rfl⟩
  | pow => exact Builtin.pow_reaches ho rfl rfl rfl

/-- The function of each built-in of a set is found under its symbol, however many others there
are. -/
theorem Builtin.function?_symbol {used : Builtin → Bool} {b : Builtin}
    (hm : m.module.functions = Builtin.funcs used) (hb : used b = true) :
    m.function? b.symbol = some b.func := by
  have hname : ∀ c : Builtin, (c.func.name == b.symbol) = decide (c = b) := by
    intro c
    cases b <;> cases c <;> rfl
  rw [Machine.function?_eq, hm, funcs, List.filter_map, List.filter_filter]
  simp only [Function.comp_def, hname]
  cases b <;> simp [all, hb]

/-- A built-in that runs to its end in the outermost call gives its value back. -/
theorem Builtin.callFunction_of_reaches {used : Builtin → Bool} {b : Builtin} {args : List Word}
    {w : Word} (hm : m.module.functions = Builtin.funcs used) (hb : used b = true)
    (hd : 1 ≤ m.maxCallDepth)
    (hr : ∀ k : Spot, k.outer = [] → ∃ ls, m.Reaches
      (.next (k.state (Frame.enter b.func args).locals [] b.func.body s))
      (.next (k.done ls [w] s))) :
    ∃ fuel, m.callFunction fuel b.symbol args s = some (.ok (some w), s) := by
  obtain ⟨room, hroom⟩ : ∃ room, m.maxCallDepth = room + 1 := ⟨m.maxCallDepth - 1, by omega⟩
  obtain ⟨ls, n, hn⟩ := hr ⟨b.func, none, [], [], room⟩ rfl
  have hlast : m.step (Spot.done ⟨b.func, none, [], [], room⟩ ls [w] s) = .halt (.ok (some w)) s :=
    rfl
  have hfirst : m.enter ⟨[], m.maxCallDepth, s⟩ b.func args =
      .next (Spot.state ⟨b.func, none, [], [], room⟩ (Frame.enter b.func args).locals []
        b.func.body s) := by
    rw [hroom]
    rfl
  refine ⟨n + 1, ?_⟩
  simp only [Machine.callFunction, function?_symbol hm hb, Machine.invoke]
  rw [hfirst, hn, Machine.runFrom, hlast, Machine.runFrom_halt]

/-- The built-ins compute their functions. In a module of built-ins, called with any words, each one
ends without a trap and leaves the store as it was. Powers and absolute values wrap around. -/
theorem Machine.callFunction_builtin {used : Builtin → Bool}
    (hm : m.module.functions = Builtin.funcs used) (hd : 1 ≤ m.maxCallDepth) (s : Store σ) :
    (used .pow = true → ∀ b e : Word, ∃ fuel, m.callFunction fuel "rt.pow" [b, e] s =
      some (.ok (some (Int32.ofInt (b.toInt ^ (max e.toInt 0).toNat))), s)) ∧
    (used .abs = true → ∀ x : Word, ∃ fuel, m.callFunction fuel "rt.abs" [x] s =
      some (.ok (some (Int32.ofInt x.toInt.natAbs)), s)) ∧
    (used .max = true → ∀ a b : Word, ∃ fuel w, m.callFunction fuel "rt.max" [a, b] s =
      some (.ok (some w), s) ∧ w.toInt = max a.toInt b.toInt) ∧
    (used .min = true → ∀ a b : Word, ∃ fuel w, m.callFunction fuel "rt.min" [a, b] s =
      some (.ok (some w), s) ∧ w.toInt = min a.toInt b.toInt) := by
  refine ⟨fun hb b e => ?_, fun hb x => ?_, fun hb a b => ?_, fun hb a b => ?_⟩
  · have hexp : (max e.toInt 0).toNat = e.toInt.toNat := by omega
    rw [hexp]
    exact Builtin.callFunction_of_reaches hm hb hd fun k ho => Builtin2.pow.func_reaches b e ho
  · exact Builtin.callFunction_of_reaches hm hb hd fun k ho => Builtin1.abs.func_reaches x ho
  · obtain ⟨fuel, hrun⟩ := Builtin.callFunction_of_reaches (s := s) hm hb hd
      fun k ho => Builtin2.max.func_reaches a b ho
    exact ⟨fuel, _, hrun, a.toInt_ofInt_max b⟩
  · obtain ⟨fuel, hrun⟩ := Builtin.callFunction_of_reaches (s := s) hm hb hd
      fun k ho => Builtin2.min.func_reaches a b ho
    exact ⟨fuel, _, hrun, a.toInt_ofInt_min b⟩

theorem Machine.callFunction_builtin_wraps :
    let m : Machine Recording := ⟨⟨[], [], Builtin.funcs (· ≠ .min)⟩, Recording.host, 1⟩
    let s : Store Recording := ⟨[], .ofPages 0, .empty⟩
    (∃ fuel, m.callFunction fuel "rt.pow" [3, 21] s = some (.ok (some 1870418611), s)) ∧
    (∃ fuel, m.callFunction fuel "rt.abs" [Int32.minValue] s =
      some (.ok (some Int32.minValue), s)) ∧
    ∃ fuel w, m.callFunction fuel "rt.max" [-1, 2] s = some (.ok (some w), s) ∧ w.toInt = 2 := by
  intro m s
  have hfuncs : m.module.functions = Builtin.funcs (· ≠ .min) := rfl
  obtain ⟨hpow, habs, hmax, -⟩ := callFunction_builtin hfuncs (Nat.le_refl 1) s
  exact ⟨hpow rfl 3 21, habs rfl Int32.minValue, hmax rfl (-1) 2⟩

end TypedScript
