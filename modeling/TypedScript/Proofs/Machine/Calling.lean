import TypedScript.Proofs.Machine.Adequacy
import TypedScript.Proofs.Machine.Trace

/-! # The calls of a frame

Which functions a frame calls while it runs. A call goes its own way whatever frames lie under it,
and when it is over, the frame that made it goes on with what it gave back. -/

namespace TypedScript

variable {σ : Type}

/-- The state with further frames under its own. -/
def State.above (s : State σ) (frames : List Frame) : State σ :=
  { s with frames := s.frames ++ frames }

/-- What becomes of frames under a machine that runs on its own: they lie under its frames, and when
it is done they go on with its result. -/
def Progress.above (q : Progress σ) (frames : List Frame) (room : Nat) : Progress σ :=
  match q with
  | .next s => .next (s.above frames)
  | .halt r store => .ofCall r frames room store

/-- How many frames lie at the spot, its own included. -/
def Spot.depth (k : Spot) : Nat := k.callers.length + 1

namespace Machine

/-- The call that the next step opens. -/
def opens? (m : Machine σ) (s : State σ) : Option (Func × List Word) :=
  match s.frames, s.room with
  | ⟨f, ls, st, ⟨i :: rest, again⟩ :: outer⟩ :: _, _ + 1 =>
    match m.exec ⟨f, ls, st, ⟨rest, again⟩ :: outer⟩ i s.store with
    | .ok (.call _ callee args) _ => some (callee, args)
    | _ => none
  | _, _ => none

/-- The calls that the frame at some depth opens in so many steps. -/
def callsAt (m : Machine σ) (depth : Nat) : Nat → Progress σ → List (Func × List Word)
  | 0, _ => []
  | _ + 1, .halt .. => []
  | n + 1, .next s =>
    (if s.frames.length = depth then (m.opens? s).toList else []) ++ m.callsAt depth n (m.step s)

variable {m : Machine σ} {s c : State σ} {q : Progress σ} {frames : List Frame} {depth i j : Nat}
  {r : Except Trap (Option Word)} {store : Store σ}

@[simp] theorem callsAt_halt : m.callsAt depth i (.halt r store) = [] := by
  cases i <;> rfl

theorem callsAt_add :
    m.callsAt depth (i + j) q = m.callsAt depth i q ++ m.callsAt depth j (m.after i q) := by
  induction i generalizing q with
  | zero => rw [Nat.zero_add, callsAt, List.nil_append, after_zero]
  | succ i ih =>
    cases q with
    | halt r store => simp
    | next s => rw [Nat.succ_add, callsAt, callsAt, ih, List.append_assoc, after_next]

theorem callsAt_one :
    m.callsAt depth 1 (.next s) = if s.frames.length = depth then (m.opens? s).toList else [] := by
  rw [callsAt, callsAt, List.append_nil]

/-! ## Calls over other frames -/

theorem step_above (hs : s.frames ≠ []) (frames : List Frame) :
    m.step (s.above frames) = (m.step s).above frames (s.room + s.frames.length) := by
  obtain ⟨fs, room, store⟩ := s
  cases fs with
  | nil => exact absurd rfl hs
  | cons f callers =>
    obtain ⟨fn, ls, st, labels⟩ := f
    rcases labels with _ | ⟨⟨_ | ⟨i, rest⟩, again⟩, outer⟩
    · simp only [step, State.above, List.cons_append, leave_eq]
      cases Frame.result ⟨fn, ls, st, []⟩ with
      | error t => rfl
      | ok v => cases callers <;> rfl
    · rfl
    · simp only [step, State.above, List.cons_append]
      cases m.exec ⟨fn, ls, st, ⟨rest, again⟩ :: outer⟩ i store with
      | error t store => rfl
      | ok action store =>
        cases action with
        | resume f => rfl
        | call caller callee args => cases room <;> rfl

/-- Every open call has taken up room. -/
theorem step_room (hs : s.frames ≠ []) (h : m.step s = .next c) :
    c.frames ≠ [] ∧ c.room + c.frames.length = s.room + s.frames.length := by
  obtain ⟨fs, room, store⟩ := s
  cases fs with
  | nil => exact absurd rfl hs
  | cons f callers =>
    obtain ⟨fn, ls, st, labels⟩ := f
    rcases labels with _ | ⟨⟨_ | ⟨i, rest⟩, again⟩, outer⟩
    · simp only [step, leave_eq] at h
      cases hr : Frame.result ⟨fn, ls, st, []⟩ with
      | error t =>
        rw [hr] at h
        cases h
      | ok v =>
        rw [hr] at h
        cases callers with
        | nil => cases h
        | cons caller callers =>
          cases h
          simp only [List.length_cons, ne_eq, reduceCtorEq, not_false_eq_true, true_and]
          omega
    · cases h
      simp
    · simp only [step] at h
      cases hi : m.exec ⟨fn, ls, st, ⟨rest, again⟩ :: outer⟩ i store with
      | error t store =>
        rw [hi] at h
        cases h
      | ok action store =>
        rw [hi] at h
        cases action with
        | resume f =>
          cases h
          simp
        | call caller callee args =>
          cases room with
          | zero => cases h
          | succ room =>
            cases h
            simp only [List.length_cons, ne_eq, reduceCtorEq, not_false_eq_true, true_and]
            omega

theorem length_above_ne (hs : s.frames ≠ []) (frames : List Frame) :
    (s.above frames).frames.length ≠ frames.length := by
  have hpos := List.length_pos_iff.mpr hs
  simp only [State.above, List.length_append]
  omega

/-- As long as a call runs, it runs the same over other frames, and these open no call. -/
theorem after_above (hs : s.frames ≠ []) (frames : List Frame) (h : m.after i (.next s) = .next c) :
    m.after i (.next (s.above frames)) = .next (c.above frames) ∧ c.frames ≠ [] ∧
      c.room + c.frames.length = s.room + s.frames.length ∧
      m.callsAt frames.length i (.next (s.above frames)) = [] := by
  induction i generalizing s with
  | zero =>
    cases h
    exact ⟨rfl, hs, rfl, rfl⟩
  | succ i ih =>
    rw [after_next] at h
    cases hstep : m.step s with
    | halt r store =>
      rw [hstep, after_halt] at h
      cases h
    | next s₁ =>
      rw [hstep] at h
      obtain ⟨hs₁, hroom₁⟩ := step_room hs hstep
      obtain ⟨hafter, hc, hroom, hcalls⟩ := ih hs₁ h
      rw [after_next, callsAt, step_above hs, hstep, if_neg (length_above_ne hs frames),
        List.nil_append]
      exact ⟨hafter, hc, hroom.trans hroom₁, hcalls⟩

/-- When a call is over, the frames under it go on with its result. -/
theorem after_above_halt (hs : s.frames ≠ []) (frames : List Frame)
    (h : m.after i (.next s) = .halt r store) :
    ∃ j, m.after j (.next (s.above frames)) =
        .ofCall r frames (s.room + s.frames.length) store ∧
      m.callsAt frames.length j (.next (s.above frames)) = [] := by
  induction i generalizing s with
  | zero => cases h
  | succ i ih =>
    have hlen := length_above_ne hs frames
    rw [after_next] at h
    cases hstep : m.step s with
    | halt r' store' =>
      rw [hstep, after_halt] at h
      cases h
      refine ⟨1, ?_, ?_⟩
      · rw [after_next, after_zero, step_above hs, hstep]
        rfl
      · rw [callsAt_one, if_neg hlen]
    | next s₁ =>
      rw [hstep] at h
      obtain ⟨hs₁, hroom₁⟩ := step_room hs hstep
      obtain ⟨j, hafter, hcalls⟩ := ih hs₁ h
      refine ⟨j + 1, ?_, ?_⟩
      · rw [after_next, step_above hs, hstep, ← hroom₁]
        exact hafter
      · rw [callsAt, step_above hs, hstep, if_neg hlen, List.nil_append]
        exact hcalls

end Machine

/-! ## Straight code -/

/-- Whether an instruction neither decides where control goes on nor calls. -/
def Instr.isStraight : Instr → Bool
  | .ite .. | .block _ | .loop _ | .br _ | .brIf _ | .ret | .call _ => false
  | _ => true

theorem Instr.isControl_of_isStraight {i : Instr} (h : i.isStraight = true) :
    i.isControl = false := by
  cases i <;> simp_all [isStraight, isControl]

namespace Machine

variable {m : Machine σ} {k : Spot} {ls : Bindings Word} {st : List Word} {i : Instr} {j : Nat}
  {code rest : List Instr} {s : Store σ}

theorem opens?_state (room : Nat) (hr : k.room = room + 1) :
    m.opens? (k.state ls st (i :: code) s) =
      match m.exec (Activation.frame ⟨ls, st⟩ k.func (⟨code, k.again⟩ :: k.outer)) i s with
      | .ok (.call _ callee args) _ => some (callee, args)
      | _ => none := by
  simp only [opens?, Spot.state, hr]
  rfl

theorem opens?_without_room (hr : k.room = 0) : m.opens? (k.state ls st (i :: code) s) = none := by
  simp [opens?, Spot.state, hr]

/-- Straight code stays in its frame and opens no call. -/
theorem step_straight (m : Machine σ) (k : Spot) (ls : Bindings Word) (st : List Word)
    (code : List Instr) (s : Store σ) (hi : i.isStraight = true) :
    ((∃ t s', m.step (k.state ls st (i :: code) s) = .halt (.error t) s') ∨
      ∃ ls' st' s', m.step (k.state ls st (i :: code) s) = .next (k.state ls' st' code s')) ∧
    m.opens? (k.state ls st (i :: code) s) = none := by
  have hopens (h : ∀ caller callee args s', m.exec
      (Activation.frame ⟨ls, st⟩ k.func (⟨code, k.again⟩ :: k.outer)) i s ≠
        .ok (.call caller callee args) s') : m.opens? (k.state ls st (i :: code) s) = none := by
    cases hr : k.room with
    | zero => exact opens?_without_room hr
    | succ room =>
      rw [opens?_state room hr]
      split
      · next caller callee args s' heq => exact absurd heq (h caller callee args s')
      · rfl
  cases acts_of_plain (Instr.isControl_of_isStraight hi) k.func ⟨ls, st⟩ s with
  | trap t s' h =>
    refine ⟨.inl ⟨t, s', step_trap (h _)⟩, hopens fun _ _ _ _ => ?_⟩
    rw [h]
    simp
  | resume b s' h =>
    refine ⟨.inr ⟨b.locals, b.stack, s', step_resume (h _)⟩, hopens fun _ _ _ _ => ?_⟩
    rw [h]
    simp
  | call x callee args st' hx =>
    rw [hx] at hi
    cases hi

@[simp] theorem length_frames_state :
    (k.state ls st code s).frames.length = k.depth := by
  simp [Spot.state, Spot.depth]

theorem after_straight (m : Machine σ) (k : Spot) (ls : Bindings Word) (st : List Word)
    (rest : List Instr) (s : Store σ) (hc : ∀ i ∈ code, i.isStraight = true)
    (hj : j ≤ code.length) :
    ((∃ t s', m.after j (.next (k.state ls st (code ++ rest) s)) = .halt (.error t) s') ∨
      ∃ ls' st' s', m.after j (.next (k.state ls st (code ++ rest) s)) =
        .next (k.state ls' st' (code.drop j ++ rest) s')) ∧
    m.callsAt k.depth j (.next (k.state ls st (code ++ rest) s)) = [] := by
  induction j generalizing code ls st s with
  | zero => exact ⟨.inr ⟨ls, st, s, rfl⟩, rfl⟩
  | succ j ih =>
    cases code with
    | nil => cases hj
    | cons i code =>
      obtain ⟨hstep, hopens⟩ := step_straight m k ls st (code ++ rest) s (hc i List.mem_cons_self)
      rw [List.cons_append, after_next, callsAt, hopens, length_frames_state, if_pos rfl]
      rcases hstep with ⟨t, s', hstep⟩ | ⟨ls', st', s', hstep⟩
      · rw [hstep]
        exact ⟨.inl ⟨t, s', after_halt⟩, by simp⟩
      · rw [hstep]
        exact ih ls' st' s' (fun i' hi' => hc i' (List.mem_cons_of_mem i hi'))
          (Nat.le_of_succ_le_succ hj)

/-- The machine gets to a state, and on its way the frame at some depth makes the given calls. -/
def GetsTo (m : Machine σ) (depth : Nat) (calls : List (Func × List Word)) (q : Progress σ)
    (s : State σ) : Prop :=
  ∃ n, m.after n q = .next s ∧ m.callsAt depth n q = calls

/-- The machine traps, and until then the frame at some depth makes the given calls. -/
def Traps (m : Machine σ) (depth : Nat) (calls : List (Func × List Word)) (q : Progress σ) : Prop :=
  ∃ n t s, m.after n q = .halt (.error t) s ∧ m.callsAt depth n q = calls

variable {depth : Nat} {calls calls' : List (Func × List Word)} {q : Progress σ} {c c' : State σ}

theorem GetsTo.trans (h : m.GetsTo depth calls q c) (h' : m.GetsTo depth calls' (.next c) c') :
    m.GetsTo depth (calls ++ calls') q c' := by
  obtain ⟨n, hn, rfl⟩ := h
  obtain ⟨n', hn', rfl⟩ := h'
  exact ⟨n + n', by rw [after_add, hn, hn'], by rw [callsAt_add, hn]⟩

theorem GetsTo.traps (h : m.GetsTo depth calls q c) (h' : m.Traps depth calls' (.next c)) :
    m.Traps depth (calls ++ calls') q := by
  obtain ⟨n, hn, rfl⟩ := h
  obtain ⟨n', t, s, hn', rfl⟩ := h'
  exact ⟨n + n', t, s, by rw [after_add, hn, hn'], by rw [callsAt_add, hn]⟩

theorem getsTo_of_step {c : State σ} (hi : i.isStraight = true)
    (h : m.step (k.state ls st (i :: code) s) = .next c) :
    m.GetsTo k.depth [] (.next (k.state ls st (i :: code) s)) c := by
  refine ⟨1, h, ?_⟩
  rw [callsAt_one, length_frames_state, if_pos rfl, (step_straight m k ls st code s hi).2]
  rfl

theorem getsTo_of_straight {c : State σ} (hc : ∀ i ∈ code, i.isStraight = true)
    (h : m.after code.length (.next (k.state ls st (code ++ rest) s)) = .next c) :
    m.GetsTo k.depth [] (.next (k.state ls st (code ++ rest) s)) c :=
  ⟨code.length, h, (after_straight m k ls st rest s hc (Nat.le_refl _)).2⟩

theorem traps_of_straight {r : Except Trap (Option Word)} {s' : Store σ}
    (hc : ∀ i ∈ code, i.isStraight = true)
    (h : m.after code.length (.next (k.state ls st (code ++ rest) s)) = .halt r s') :
    m.Traps k.depth [] (.next (k.state ls st (code ++ rest) s)) := by
  obtain ⟨htrace, hcalls⟩ := after_straight m k ls st rest s hc (Nat.le_refl _)
  rw [h] at htrace
  rcases htrace with ⟨t, s₁, htrap⟩ | ⟨ls', st', s₁, hnext⟩
  · exact ⟨code.length, t, s₁, h.trans htrap, hcalls⟩
  · cases hnext

/-! ## Calls -/

/-- The frames that wait for a call made in front of the code. -/
def waiting (k : Spot) (ls : Bindings Word) (st : List Word) (code : List Instr) : List Frame :=
  ⟨k.func, ls, st, ⟨code, k.again⟩ :: k.outer⟩ :: k.callers

variable {x : String} {callee : Func} {args : List Word} {room : Nat}

/-- A call is opened if there is room for it. -/
theorem getsTo_of_call (hi : m.import? x = none) (hf : m.function? x = some callee)
    (hn : args.length = callee.params.length) (hr : k.room = room + 1) :
    m.GetsTo k.depth [(callee, args)] (.next (k.state ls (args.reverse ++ st) (.call x :: code) s))
      (State.above ⟨[Frame.enter callee args], room, s⟩ (waiting k ls st code)) := by
  refine ⟨1, step_call_enter hi hf hn hr, ?_⟩
  rw [callsAt_one, length_frames_state, if_pos rfl, opens?_state room hr]
  simp [exec, call, hi, hf, Frame.popArgs, Activation.frame, ← hn]

theorem traps_of_call (hi : m.import? x = none) (hf : m.function? x = some callee)
    (hn : args.length = callee.params.length) (hr : k.room = 0) :
    m.Traps k.depth [] (.next (k.state ls (args.reverse ++ st) (.call x :: code) s)) := by
  refine ⟨1, .callStackExhausted m.maxCallDepth, s, step_call_exhausted hi hf hn hr, ?_⟩
  rw [callsAt_one, length_frames_state, if_pos rfl, opens?_without_room hr]
  rfl

/-- A call that ends on its own ends as the structured semantics tells. -/
theorem calls_of_after {n : Nat} {r : Except Trap (Option Word)} {s' : Store σ}
    (hd : room + 1 + depth = m.maxCallDepth)
    (h : m.after n (.next ⟨[Frame.enter callee args], room, s⟩) = .halt r s') :
    m.Calls depth callee args s r s' := by
  have hrun : m.runFrom n (m.enter ⟨[], room + 1, s⟩ callee args) = some (r, s') :=
    runFrom_eq_some_iff.mpr h
  obtain ⟨v, s₁, hcalls, hend⟩ := (splitsAt n).enter hd hrun
  rw [runFrom_ofCall_nil] at hend
  cases hend
  exact hcalls

/-- While a call runs, the frames that wait for it open none. -/
theorem getsTo_above {n : Nat} {own c : State σ} (hs : own.frames ≠ [])
    (h : m.after n (.next own) = .next c) :
    m.GetsTo k.depth [] (.next (own.above (waiting k ls st code)))
      (c.above (waiting k ls st code)) := by
  obtain ⟨hafter, -, -, hcalls⟩ := after_above hs (waiting k ls st code) h
  exact ⟨n, hafter, hcalls⟩

theorem traps_above {n : Nat} {own : State σ} {t : Trap} {store : Store σ} (hs : own.frames ≠ [])
    (h : m.after n (.next own) = .halt (.error t) store) :
    m.Traps k.depth [] (.next (own.above (waiting k ls st code))) := by
  obtain ⟨j, hafter, hcalls⟩ := after_above_halt hs (waiting k ls st code) h
  exact ⟨j, t, store, hafter, hcalls⟩

/-- What a call gives back is the topmost operand of the frame that waited for it. -/
theorem getsTo_of_return {n : Nat} {own : State σ} {w : Word} {store : Store σ}
    (hs : own.frames ≠ []) (hr : k.room = own.room + own.frames.length)
    (h : m.after n (.next own) = .halt (.ok (some w)) store) :
    m.GetsTo k.depth [] (.next (own.above (waiting k ls st code)))
      (k.state ls (w :: st) code store) := by
  obtain ⟨j, hafter, hcalls⟩ := after_above_halt hs (waiting k ls st code) h
  refine ⟨j, ?_, hcalls⟩
  rw [hafter, ← hr]
  rfl

end Machine

end TypedScript
