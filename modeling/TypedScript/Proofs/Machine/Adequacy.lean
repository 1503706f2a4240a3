import TypedScript.Proofs.Evaluation.Follows
import TypedScript.Proofs.Machine.Structured

/-! # Adequacy of the machine

The machine keeps a stack of calls, and in each call a stack of open bodies. It ends exactly as the
structured semantics does: code that ends gets the machine to where it ends, and a run that halts
splits behind the code that it starts with. -/

namespace TypedScript

/-- Where the machine is once code in front of `rest` has ended so. -/
def Ending.progress {σ : Type} (e : Ending) (m : Machine σ) (k : Spot) (rest : List Instr)
    (s : Store σ) : Progress σ :=
  match e with
  | .normal a => .next (k.state a.locals a.stack rest s)
  | .branch n a => m.step (k.state a.locals a.stack (.br n :: rest) s)
  | .ret a => .next (k.done a.locals a.stack s)
  | .trap t => .halt (.error t) s

/-- The callers go on with what a call gave back. -/
def Progress.ofCall {σ : Type} (r : Except Trap (Option Word)) (callers : List Frame) (room : Nat)
    (s : Store σ) : Progress σ :=
  match r, callers with
  | .error t, _ => .halt (.error t) s
  | .ok r, [] => .halt (.ok r) s
  | .ok r, caller :: outer => .next ⟨caller.receive r :: outer, room, s⟩

namespace Machine

variable {σ : Type} {m : Machine σ} {k : Spot} {f : Func} {a b : Activation} {s s' : Store σ}
  {i : Instr} {code rest : List Instr} {e : Ending} {depth : Nat}

theorem leave_eq {g : Frame} {callers : List Frame} {room : Nat} :
    leave g callers room s = .ofCall g.result callers (room + 1) s := by
  cases hg : g.result with
  | error t => simp only [leave, hg, Progress.ofCall]
  | ok r => cases callers <;> simp only [leave, hg, Progress.ofCall]

/-- The code behind a branch does not matter. -/
theorem step_br_rest {ls : Bindings Word} {st : List Word} (n : Nat) (code rest : List Instr) :
    m.step (k.state ls st (.br n :: code) s) = m.step (k.state ls st (.br n :: rest) s) := by
  rw [step_br, step_br]
  cases n with
  | zero => cases hk : k.again <;> rfl
  | succ n => rfl

/-- A branch out of a body counts the body, and one that leaves the call reports what is left. -/
theorem step_br_inside {ls : Bindings Word} {st : List Word} {again : Option (List Instr)}
    {n : Nat} :
    m.step ((k.inside rest again).state ls st (.br (n + 1) :: code) s) =
      m.step (k.state ls st (.br n :: rest) s) := by
  rw [step_br, step_br]
  simp only [Spot.inside, Frame.branch, List.drop_succ_cons]
  cases (⟨rest, k.again⟩ :: k.outer : List Label).drop n with
  | nil => simp
  | cons l outer =>
    obtain ⟨_, again⟩ := l
    cases again <;> rfl

/-- Where code ends otherwise than behind its last instruction, what stands behind it does not
matter. -/
theorem progress_rest (he : e.isNormal = false) :
    e.progress m k code s = e.progress m k rest s := by
  cases e with
  | normal a => cases he
  | branch n a => exact step_br_rest n code rest
  | ret a => rfl
  | trap t => rfl

/-- The end of a body is an end of the code around it. A body that runs to its end takes one more
step to be left. -/
theorem reaches_outside {again : Option (List Instr)}
    (he : ∀ b, e = .branch 0 b → again = none) :
    m.Reaches (e.progress m (k.inside rest again) [] s) (e.outside.progress m k rest s) := by
  cases e with
  | normal a => exact .step step_end_inside
  | ret a => exact .refl _
  | trap t => exact .refl _
  | branch n a =>
    cases n with
    | zero =>
      obtain rfl := he a rfl
      exact .refl _
    | succ n =>
      rw [Ending.progress, step_br_inside]
      exact .refl _

/-- The end of a function's body is the end of its call. -/
theorem reaches_result {frames : List Frame} {room : Nat} :
    m.Reaches (e.progress m ⟨f, none, [], frames, room⟩ [] s)
      (.ofCall (e.result f) frames (room + 1) s) := by
  have hdone (a : Activation) : m.Reaches
      (.next (Spot.done ⟨f, none, [], frames, room⟩ a.locals a.stack s))
      (.ofCall (a.result f) frames (room + 1) s) := by
    rw [← a.result_frame f []]
    exact .step leave_eq
  cases e with
  | normal a => exact .head step_end (hdone a)
  | ret a => exact hdone a
  | trap t => exact .refl _
  | branch n a =>
    cases n with
    | zero => exact hdone a
    | succ n =>
      have hbr : m.step (Spot.state ⟨f, none, [], frames, room⟩ a.locals a.stack [.br (n + 1)] s) =
          .halt (.error (.invalidBranch (n + 1))) s := by
        simp [step_br, Frame.branch]
      rw [Ending.progress, hbr]
      exact .refl _

theorem step_resume
    (h : m.exec (a.frame k.func (⟨rest, k.again⟩ :: k.outer)) i s =
      .ok (.resume (b.frame k.func (⟨rest, k.again⟩ :: k.outer))) s') :
    m.step (k.state a.locals a.stack (i :: rest) s) = .next (k.state b.locals b.stack rest s') := by
  simp only [step, Spot.state]
  rw [show (⟨k.func, a.locals, a.stack, ⟨rest, k.again⟩ :: k.outer⟩ : Frame) = a.frame k.func _
    from rfl, h]
  rfl

theorem step_trap {t : Trap}
    (h : m.exec (a.frame k.func (⟨rest, k.again⟩ :: k.outer)) i s = .error t s') :
    m.step (k.state a.locals a.stack (i :: rest) s) = .halt (.error t) s' := by
  simp only [step, Spot.state]
  rw [show (⟨k.func, a.locals, a.stack, ⟨rest, k.again⟩ :: k.outer⟩ : Frame) = a.frame k.func _
    from rfl, h]

theorem step_call_of_stack {x : String} {callee : Func} {args st : List Word}
    (hi : m.import? x = none) (hf : m.function? x = some callee)
    (hn : args.length = callee.params.length) (hst : a.stack = args.reverse ++ st) :
    m.step (k.state a.locals a.stack (.call x :: rest) s) =
      m.enter ⟨Activation.frame { a with stack := st } k.func (⟨rest, k.again⟩ :: k.outer) ::
        k.callers, k.room, s⟩ callee args := by
  have hlen : args.reverse.length = callee.params.length := by rw [List.length_reverse, hn]
  rw [hst, step_call hi hf (by simp [hn]), List.drop_left' hlen, List.take_left' hlen,
    List.reverse_reverse]
  rfl

theorem progress_ofCall {r : Except Trap (Option Word)} :
    (Ending.ofCall a r).progress m k rest s =
      .ofCall r (a.frame k.func (⟨rest, k.again⟩ :: k.outer) :: k.callers) k.room s := by
  rcases r with t | _ | w <;> rfl

/-- A conditional branch is a branch or nothing. -/
theorem step_brIf_eq {ls : Bindings Word} {st : List Word} {w : Word} {n : Nat} :
    m.step (k.state ls (w :: st) (.brIf n :: rest) s) =
      (if w ≠ 0 then Ending.branch n ⟨ls, st⟩ else .normal ⟨ls, st⟩).progress m k rest s := by
  by_cases hw : w = 0
  · subst hw
    rfl
  · rw [if_pos hw, step_brIf hw]
    rfl

/-- The code has nothing to do, or a step gets the machine on its way to where the code ends. A loop
that starts again is entered by that step, so that the step must not be counted twice. -/
def Advances (m : Machine σ) (k : Spot) (rest : List Instr) (a : Activation) (s : Store σ)
    (code : List Instr) (e : Ending) (s' : Store σ) : Prop :=
  (code = [] ∧ e = .normal a ∧ s' = s) ∨
    m.Reaches (m.step (k.state a.locals a.stack (code ++ rest) s)) (e.progress m k rest s')

theorem Advances.reaches (h : m.Advances k rest a s code e s') :
    m.Reaches (.next (k.state a.locals a.stack (code ++ rest) s)) (e.progress m k rest s') := by
  rcases h with ⟨rfl, rfl, rfl⟩ | h
  · exact .refl _
  · exact .head rfl h

theorem Advances.outside {again : Option (List Instr)}
    (h : m.Advances (k.inside rest again) [] a s code e s')
    (he : ∀ b, e = .branch 0 b → again = none) :
    m.Reaches (.next ((k.inside rest again).state a.locals a.stack code s))
      (e.outside.progress m k rest s') := by
  have hbody := h.reaches
  rw [List.append_nil] at hbody
  exact hbody.trans (reaches_outside he)

mutual
/-- The machine gets to where the code ends. -/
theorem Yields.advances {depth : Nat} {f : Func} {a : Activation} {s s' : Store σ} {e : Ending}
    {code : List Instr} (h : m.Yields depth f a s code e s') :
    ∀ (k : Spot) (rest : List Instr), k.func = f → k.room + depth = m.maxCallDepth →
      m.Advances k rest a s code e s' := by
  match h with
  | .nil =>
    intro k rest hk hd
    exact .inl ⟨rfl, rfl, rfl⟩
  | .next hi hr =>
    intro k rest hk hd
    refine .inr (.trans ?_ (hr.advances k rest hk hd).reaches)
    exact (hi.advances k _ hk hd).resolve_left (by simp)
  | .stop hi he =>
    intro k rest hk hd
    right
    rw [progress_rest he]
    exact (hi.advances k _ hk hd).resolve_left (by simp)
  | .plain hi h =>
    rintro k rest rfl hd
    right
    rw [List.singleton_append,
      step_resume ((acts_of_plain hi _ _ _).resume_labels h (⟨rest, k.again⟩ :: k.outer))]
    exact .refl _
  | .trap hi h =>
    rintro k rest rfl hd
    right
    rw [List.singleton_append,
      step_trap ((acts_of_plain hi _ _ _).trap_labels h (⟨rest, k.again⟩ :: k.outer))]
    exact .refl _
  | .call hi hf hn hst hc =>
    rintro k rest rfl hd
    right
    rw [List.singleton_append, step_call_of_stack hi hf hn hst, progress_ofCall]
    exact hc.reaches _ k.room hd
  | .block hb =>
    intro k rest hk hd
    exact .inr ((hb.advances (k.inside rest none) [] hk hd).outside fun _ _ => rfl)
  | .ite hst hb =>
    intro k rest hk hd
    right
    rw [hst]
    exact (hb.advances (k.inside rest none) [] hk hd).outside fun _ _ => rfl
  | .iteUnderflow hst =>
    rintro k rest rfl hd
    right
    rw [hst]
    exact .refl _
  | .loopAgain hb hl =>
    intro k rest hk hd
    right
    have hbody (again) := (hb.advances (k.inside rest again) [] hk hd).reaches
    simp only [List.append_nil] at hbody
    have hagain := (hl.advances k rest hk hd).resolve_left (by simp)
    exact (hbody _).trans hagain
  | .loopDone hb he =>
    intro k rest hk hd
    exact .inr ((hb.advances (k.inside rest (some _)) [] hk hd).outside fun b hb =>
      absurd hb (he b))
  | .br =>
    intro k rest hk hd
    exact .inr (.refl _)
  | .brIf hst =>
    intro k rest hk hd
    right
    rw [hst, List.singleton_append, step_brIf_eq]
    exact .refl _
  | .brIfUnderflow hst =>
    rintro k rest rfl hd
    right
    rw [hst]
    exact .refl _
  | .ret =>
    intro k rest hk hd
    exact .inr (.refl _)

theorem Calls.reaches {depth : Nat} {f : Func} {args : List Word} {s s' : Store σ}
    {r : Except Trap (Option Word)} (h : m.Calls depth f args s r s') :
    ∀ (frames : List Frame) (room : Nat), room + depth = m.maxCallDepth →
      m.Reaches (m.enter ⟨frames, room, s⟩ f args) (.ofCall r frames room s') := by
  match h with
  | .exhausted h =>
    intro frames room hd
    obtain rfl : room = 0 := by omega
    exact .refl _
  | .body h hb =>
    intro frames room hd
    obtain ⟨room, rfl⟩ : ∃ n, room = n + 1 := ⟨room - 1, by omega⟩
    have hbody := (hb.advances ⟨f, none, [], frames, room⟩ [] rfl
      (by simp only; omega)).reaches
    rw [List.append_nil] at hbody
    exact hbody.trans reaches_result
end

/-- A run that ends also ends from every state that it reaches. -/
theorem Reaches.runFrom_eq_some {q q' : Progress σ} {r : Halted σ} {n : Nat}
    (h : m.Reaches q q') (hr : m.runFrom n q = some r) : m.runFrom n q' = some r := by
  obtain ⟨j, hj⟩ := h
  rw [← hj]
  exact runFrom_mono hr (by omega)

theorem runFrom_next {st : State σ} {r : Halted σ} {n : Nat}
    (h : m.runFrom n (.next st) = some r) :
    ∃ n', n = n' + 1 ∧ m.runFrom n' (m.step st) = some r := by
  cases n with
  | zero => simp [runFrom] at h
  | succ n => exact ⟨n, rfl, h⟩

/-- The code ends as the structured semantics tells, and the run goes on from there with less
fuel. -/
def Splits (m : Machine σ) (depth : Nat) (k : Spot) (rest : List Instr) (a : Activation)
    (s : Store σ) (code : List Instr) (n : Nat) (r : Halted σ) : Prop :=
  ∃ e s' n', m.Yields depth k.func a s code e s' ∧ n' + min 1 code.length ≤ n ∧
    m.runFrom n' (e.progress m k rest s') = some r

/-- A run that ends within so many steps splits behind the code that it starts with. -/
def SplitsAt (m : Machine σ) (n : Nat) : Prop :=
  ∀ (depth : Nat) (k : Spot) (rest : List Instr) (a : Activation) (s : Store σ)
    (code : List Instr) (r : Halted σ), k.room + depth = m.maxCallDepth →
    m.runFrom n (.next (k.state a.locals a.stack (code ++ rest) s)) = some r →
    m.Splits depth k rest a s code n r

variable {r : Halted σ} {n : Nat}

theorem Splits.instr {e : Ending} (hy : m.Yields depth k.func a s [i] e s')
    (h : m.runFrom n (e.progress m k rest s') = some r) :
    m.Splits depth k rest a s [i] (n + 1) r :=
  ⟨e, s', n, hy, Nat.le_refl _, h⟩

theorem SplitsAt.body (h : m.SplitsAt n) {again : Option (List Instr)} {body : List Instr}
    (hd : k.room + depth = m.maxCallDepth)
    (hr : m.runFrom n (.next ((k.inside rest again).state a.locals a.stack body s)) = some r) :
    m.Splits depth (k.inside rest again) [] a s body n r := by
  apply h depth (k.inside rest again) [] a s body r hd
  rwa [List.append_nil]

/-- An instruction that opens a block splits where its body does. -/
theorem SplitsAt.outside (h : m.SplitsAt n) {body : List Instr}
    (hd : k.room + depth = m.maxCallDepth)
    (hy : ∀ {e : Ending} {s' : Store σ}, m.Yields depth k.func b s body e s' →
      m.Yields depth k.func a s [i] e.outside s')
    (hr : m.runFrom n (.next ((k.inside rest none).state b.locals b.stack body s)) = some r) :
    m.Splits depth k rest a s [i] (n + 1) r := by
  obtain ⟨e, s', n', hb, hn, he⟩ := h.body hd hr
  have hout := (reaches_outside fun _ _ => rfl).runFrom_eq_some he
  exact ⟨e.outside, s', n', hy hb, by rw [List.length_singleton]; omega, hout⟩

/-- A body that branches to the start of its loop is not empty, so that the loop starts again with
less fuel than it had. -/
theorem SplitsAt.loop (h : ∀ n' ≤ n, m.SplitsAt n') {body : List Instr}
    (hd : k.room + depth = m.maxCallDepth)
    (hr : m.runFrom n (.next ((k.inside rest (some body)).state a.locals a.stack body s)) =
      some r) :
    m.Splits depth k rest a s [.loop body] (n + 1) r := by
  obtain ⟨e, s₁, n₁, hb, hn, he⟩ := (h n (Nat.le_refl n)).body hd hr
  by_cases hz : ∃ b, e = .branch 0 b
  · obtain ⟨b, rfl⟩ := hz
    have hlen : 0 < body.length := by
      cases body with
      | nil => cases hb
      | cons i rest => simp
    have hagain := h (n₁ + 1) (by omega) depth k rest b s₁ [.loop body] r hd he
    obtain ⟨e, s', n', hl, hn', hrest⟩ := hagain
    rw [List.length_singleton] at hn'
    exact ⟨e, s', n', .loopAgain hb hl, by rw [List.length_singleton]; omega, hrest⟩
  · have hz : ∀ b, e ≠ .branch 0 b := fun b hb => hz ⟨b, hb⟩
    have hout := (reaches_outside fun b hb => absurd hb (hz b)).runFrom_eq_some he
    exact ⟨e.outside, s₁, n₁, .loopDone hb hz, by rw [List.length_singleton]; omega, hout⟩

/-- A run that enters a function splits where the call ends. -/
theorem SplitsAt.enter (h : m.SplitsAt n) {frames : List Frame} {room : Nat} {args : List Word}
    (hd : room + depth = m.maxCallDepth)
    (hr : m.runFrom n (m.enter ⟨frames, room, s⟩ f args) = some r) :
    ∃ v s', m.Calls depth f args s v s' ∧ m.runFrom n (.ofCall v frames room s') = some r := by
  cases room with
  | zero => exact ⟨_, s, .exhausted (by omega), hr⟩
  | succ room =>
    have hbody := h (depth + 1) ⟨f, none, [], frames, room⟩ [] (.enter f args) s f.body r
      (by simp only; omega) (by rw [List.append_nil]; exact hr)
    obtain ⟨e, s', n', hy, hn, he⟩ := hbody
    have hend := reaches_result.runFrom_eq_some he
    exact ⟨e.result f, s', .body (by omega) hy, runFrom_mono hend (by omega)⟩

theorem splits_instr (h : ∀ n' ≤ n, m.SplitsAt n') (hd : k.room + depth = m.maxCallDepth)
    (hr : m.runFrom n (m.step (k.state a.locals a.stack (i :: rest) s)) = some r) :
    m.Splits depth k rest a s [i] (n + 1) r := by
  by_cases hi : i.isControl = true
  · obtain ⟨ls, st⟩ := a
    cases i with
    | const _ | localGet _ | localSet _ | globalGet _ | globalSet _ | call _ | numeric _ | eqz
    | load | store | nop => cases hi
    | block body => exact (h n (Nat.le_refl n)).outside hd .block hr
    | loop body => exact SplitsAt.loop h hd hr
    | br depth => exact .instr .br hr
    | ret => exact .instr .ret hr
    | ite body otherwise =>
      cases st with
      | nil => exact .instr (.iteUnderflow rfl) hr
      | cons w st => exact (h n (Nat.le_refl n)).outside hd (.ite rfl) hr
    | brIf depth =>
      cases st with
      | nil => exact .instr (.brIfUnderflow rfl) hr
      | cons w st => exact .instr (.brIf rfl) (by rwa [step_brIf_eq] at hr)
  · have hi : i.isControl = false := by simpa using hi
    cases acts_of_plain hi k.func a s with
    | trap t s' ht =>
      rw [step_trap (ht _)] at hr
      exact .instr (.trap hi (ht [])) hr
    | resume b s' hb =>
      rw [step_resume (hb _)] at hr
      exact .instr (.plain hi (hb [])) hr
    | call x callee args st hx himp hf hn hst =>
      subst hx
      rw [step_call_of_stack himp hf hn hst] at hr
      obtain ⟨v, s', hc, hv⟩ := (h n (Nat.le_refl n)).enter hd hr
      exact .instr (.call himp hf hn hst hc) (by rwa [progress_ofCall])

theorem splitsAt_of_le (h : ∀ n' < n, m.SplitsAt n') : m.SplitsAt n := by
  intro depth k rest a s code r hd hr
  cases code with
  | nil => exact ⟨.normal a, s, n, .nil, Nat.le_refl n, hr⟩
  | cons i code =>
    obtain ⟨n, rfl, hr⟩ := runFrom_next hr
    obtain ⟨e, s₁, n₁, hi, hn₁, he⟩ := splits_instr (fun n' hn' => h n' (by omega)) hd hr
    rw [List.length_singleton] at hn₁
    by_cases hne : e.isNormal = true
    · cases e with
      | branch | ret | trap => cases hne
      | normal b =>
        obtain ⟨e, s', n', hy, hn', hrest⟩ := h n₁ (by omega) depth k rest b s₁ code r hd he
        exact ⟨e, s', n', .next hi hy, by rw [List.length_cons]; omega, hrest⟩
    · have hne : e.isNormal = false := by simpa using hne
      have hlast : m.runFrom n₁ (e.progress m k rest s₁) = some r := by
        rwa [← progress_rest hne]
      exact ⟨e, s₁, n₁, .stop hi hne, by rw [List.length_cons]; omega, hlast⟩

theorem splitsAt (n : Nat) : m.SplitsAt n := by
  induction n using Nat.strongRecOn with
  | ind n ih => exact splitsAt_of_le ih

theorem runFrom_ofCall_nil {v : Except Trap (Option Word)} {room : Nat} :
    m.runFrom n (.ofCall v [] room s) = some (v, s) := by
  cases v <;> exact runFrom_halt n _ s

/-- The machine ends a call exactly as the structured semantics does. -/
theorem invoke_iff_calls (m : Machine σ) (f : Func) (args : List Word) (s s' : Store σ)
    (r : Except Trap (Option Word)) :
    (∃ fuel, m.invoke fuel f args s = some (r, s')) ↔ m.Calls 0 f args s r s' := by
  constructor
  · rintro ⟨fuel, h⟩
    obtain ⟨v, s₁, hc, hv⟩ := (splitsAt fuel).enter (Nat.add_zero _) h
    rw [runFrom_ofCall_nil] at hv
    cases hv
    exact hc
  · intro h
    obtain ⟨n, hn⟩ := h.reaches [] m.maxCallDepth (Nat.add_zero _)
    refine ⟨n + 0, ?_⟩
    rw [invoke, hn, runFrom_ofCall_nil]

/-- Leaves an operand behind, but has no result. -/
def silentFunc : Func where
  name := "silent"
  exportName := none
  params := []
  hasResult := false
  locals := []
  body := [.const 9]

/-- Gives back its argument by a branch out of the whole body. -/
def echoFunc : Func where
  name := "echo"
  exportName := none
  params := ["x"]
  hasResult := true
  locals := ["y"]
  body := [.block [.localGet "y", .localGet "x", .br 1], .nop]

/-- Has an operand waiting while it calls the other two. -/
def callerFunc : Func where
  name := "caller"
  exportName := none
  params := []
  hasResult := true
  locals := []
  body := [.const 5, .call "silent", .const 3, .call "echo", .numeric .sub]

def callerMachine : Machine Recording where
  module := ⟨[], [], [silentFunc, echoFunc, callerFunc]⟩
  host := Recording.host
  maxCallDepth := 2

theorem invoke_iff_calls_caller :
    let s : Store Recording := ⟨.ofList [], .ofPages 0, .empty⟩
    callerMachine.Calls 1 silentFunc [] s (.ok none) s ∧
      callerMachine.Calls 1 echoFunc [3] s (.ok (some 3)) s ∧
      ∃ fuel, callerMachine.invoke fuel callerFunc [] s = some (.ok (some 2), s) := by
  intro s
  have hsilent : callerMachine.Calls 1 silentFunc [] s (.ok none) s :=
    .body (e := .normal ⟨(Activation.enter silentFunc []).locals, [9]⟩) (by decide)
      (.next (.plain rfl rfl) .nil)
  have hblock : callerMachine.Yields 2 echoFunc (.enter echoFunc [3]) s
      [.block [.localGet "y", .localGet "x", .br 1]]
      (.branch 0 ⟨(Activation.enter echoFunc [3]).locals, [3, 0]⟩) s := by
    refine .block (e := .branch 1 ⟨(Activation.enter echoFunc [3]).locals, [3, 0]⟩) ?_
    exact .next (b := ⟨(Activation.enter echoFunc [3]).locals, [0]⟩) (.plain rfl rfl)
      (.next (.plain rfl rfl) .br)
  have hecho : callerMachine.Calls 1 echoFunc [3] s (.ok (some 3)) s :=
    .body (by decide) (.stop hblock rfl)
  have hbody : callerMachine.Yields 1 callerFunc (.enter callerFunc []) s callerFunc.body
      (.normal ⟨(Activation.enter callerFunc []).locals, [2]⟩) s := by
    refine .next (b := ⟨(Activation.enter callerFunc []).locals, [5]⟩) (.plain rfl rfl) ?_
    refine .next (.call rfl rfl rfl rfl hsilent) ?_
    refine .next (b := ⟨(Activation.enter callerFunc []).locals, [3, 5]⟩) (.plain rfl rfl) ?_
    refine .next (.call rfl rfl rfl rfl hecho) ?_
    exact .next (.plain rfl rfl) .nil
  refine ⟨hsilent, hecho, (invoke_iff_calls callerMachine callerFunc [] s s _).mpr ?_⟩
  exact .body (by decide) hbody

end Machine

end TypedScript
