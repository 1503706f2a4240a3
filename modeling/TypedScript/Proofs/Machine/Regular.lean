import TypedScript.Proofs.Machine.Calling
import TypedScript.Proofs.Machine.Safety

/-! # States of a run

What holds of every state that the run of a program comes to, whatever the host does: it fits the
module, and the open calls take up the room. -/

namespace TypedScript

def Host.idle {σ : Type} : Host σ where
  observe _ _ h := h
  writeLine _ h := (.ok (), h)

theorem Host.idle_tame {σ : Type} : (Host.idle : Host σ).Tame where
  answers := rfl
  writes line h t h' heq := by cases heq

namespace Machine

variable {σ : Type} {m : Machine σ} {results n : Nat} {k : Spot} {ls : Bindings Word}
  {st : List Word} {code : List Instr} {i : Instr} {store : Store σ} {s s' : State σ}

def idle (m : Machine σ) : Machine σ := { m with host := .idle }

/-- An instruction that does not ask the host does the same with any host. -/
theorem step_idle (hi : ∀ x, i = .call x → m.import? x = none) :
    m.step (k.state ls st (i :: code) store) = m.idle.step (k.state ls st (i :: code) store) := by
  have hexec (f : Frame) : m.exec f i = m.idle.exec f i := by
    cases i with
    | call x =>
      have hidle : m.idle.import? x = none := hi x rfl
      rw [exec, exec, call, call, hi x rfl, hidle]
      rfl
    | _ => rfl
  simp only [step, Spot.state, hexec]
  rfl

/-- Only a host can make an instruction of fitting code fail at a fault. -/
theorem instr_safe_of_own (hv : m.module.Valid)
    (hi : ∀ x, i = .call x → m.module.importsHost x = false)
    (h : State.Fits m.module results (k.state ls st (i :: code) store)) :
    (m.step (k.state ls st (i :: code) store)).Safe m.module results := by
  have hv : m.idle.module.Valid := hv
  rw [step_idle fun x hx => m.import?_eq_none (hi x hx)]
  exact instr_safe hv Host.idle_tame h

/-- An imported function takes an operand and gives one back. -/
theorem import_fits {x : String} (hx : m.module.importsHost x = true)
    (h : State.Fits m.module results (k.state ls st (.call x :: code) store))
    (hs : m.step (k.state ls st (.call x :: code) store) = .next s') :
    s'.Fits m.module results := by
  obtain ⟨leaves, n, hopens, hn⟩ := h.calls.head.opens
  obtain ⟨base, before, after, rfl, harity, ho⟩ := hopens.next
  obtain ⟨arity, harity, hafter⟩ := Option.bind_eq_some_iff.mp harity
  obtain rfl : (1, 1) = arity := by
    rw [Module.arity?, if_pos hx] at harity
    exact Option.some.inj harity
  obtain ⟨hle, rfl⟩ := heightAfter_eq_some.mp hafter
  have hlen : base + before ≤ st.length := hn
  obtain ⟨w, st, rfl⟩ := List.exists_cons_of_length_pos (by omega : 0 < st.length)
  obtain ⟨fn, hfn⟩ := m.import?_of_importsHost hx
  rw [step_import hfn] at hs
  split at hs
  · cases hs
    rw [List.length_cons] at hlen
    exact h.go h.calls.head.slots ho (by rw [List.length_cons]; omega) h.store
  · cases hs

/-- A fitting state is followed by a fitting one: what the host does shows only in its answers. -/
theorem step_fits (hv : m.module.Valid) (h : s.Fits m.module results) (hs : m.step s = .next s') :
    s'.Fits m.module results := by
  have hfits (hsafe : (m.step s).Safe m.module results) : s'.Fits m.module results := by
    rw [hs] at hsafe
    exact hsafe
  obtain ⟨frames, room, store⟩ := s
  cases frames with
  | nil => cases h.calls
  | cons f callers =>
    obtain ⟨func, ls, st, labels⟩ := f
    rcases labels with _ | ⟨⟨_ | ⟨i, code⟩, again⟩, outer⟩
    · exact hfits (leave_safe h rfl)
    · obtain ⟨leaves, n, hopens, hn⟩ := h.calls.head.opens
      obtain ⟨leaves', ho⟩ := hopens.ended
      exact hfits (h.go h.calls.head.slots ho hn h.store)
    · by_cases hi : ∃ x, i = .call x ∧ m.module.importsHost x = true
      · obtain ⟨x, rfl, hx⟩ := hi
        exact import_fits (k := ⟨func, again, outer, callers, room⟩) hx h hs
      · refine hfits (instr_safe_of_own (k := ⟨func, again, outer, callers, room⟩) hv ?_ h)
        intro x hx
        exact Bool.eq_false_iff.mpr fun himport => hi ⟨x, hx, himport⟩

structure Regular (m : Machine σ) (results : Nat) (s : State σ) : Prop where
  fits : s.Fits m.module results
  room : s.room + s.frames.length = m.maxCallDepth

theorem Regular.frames_ne_nil (h : m.Regular results s) : s.frames ≠ [] := by
  intro hnil
  have hcalls := h.fits.calls
  rw [hnil] at hcalls
  cases hcalls

theorem Regular.step (hv : m.module.Valid) (h : m.Regular results s) (hs : m.step s = .next s') :
    m.Regular results s' where
  fits := step_fits hv h.fits hs
  room := (step_room h.frames_ne_nil hs).2.trans h.room

theorem Regular.after (hv : m.module.Valid) (h : m.Regular results s)
    (hs : m.after n (.next s) = .next s') : m.Regular results s' := by
  induction n generalizing s with
  | zero =>
    cases hs
    exact h
  | succ n ih =>
    rw [after_next] at hs
    cases hstep : m.step s with
    | halt r store =>
      rw [hstep, after_halt] at hs
      cases hs
    | next q =>
      rw [hstep] at hs
      exact ih (h.step hv hstep) hs

theorem Regular.of_getsTo {depth : Nat} {calls : List (Func × List Word)} (hv : m.module.Valid)
    (h : m.Regular results s) (hs : m.GetsTo depth calls (.next s) s') : m.Regular results s' := by
  obtain ⟨n, hn, -⟩ := hs
  exact h.after hv hn

theorem regular_of_enter {f : Func} {args : List Word}
    (hsafe : (m.enter ⟨[], m.maxCallDepth, store⟩ f args).Safe m.module results)
    (h : m.enter ⟨[], m.maxCallDepth, store⟩ f args = .next s) : m.Regular results s := by
  rw [h] at hsafe
  rw [enter] at h
  split at h
  · cases h
  · next room hroom =>
    cases h
    exact ⟨hsafe, hroom.symm⟩

end Machine

namespace Program

/-- Every state that the run of an accepted program comes to is regular. -/
theorem regular_of_after {σ : Type} {p t : Program} {o : Options} {md : Module} {host : Host σ}
    (ht : p.check = .ok t) (hm : t.lower o = .ok md) (hd : p.Dotless) {c : Config} {h : σ} {n : Nat}
    {s : State σ}
    (hs : (Machine.ofModule md c host).after n
      ((Machine.ofModule md c host).start o.entryExport (Store.initial md c h)) = .next s) :
    ∃ results, (Machine.ofModule md c host).Regular results s := by
  have helab := check_elaborated ht
  have hemit := helab.emitted ((check_sameOutline ht).dotless hd) hm
  have hvalid := hemit.valid helab
  obtain ⟨g, hg, hentry⟩ := hemit.entry
  have hparams : g.params = [] := by
    obtain ⟨body, -, rfl⟩ := lowerEntry_eq_ok_iff.mp hentry
    rfl
  have hsafe : ((Machine.ofModule md c host).enter
      ⟨[], c.maxCallDepth, Store.initial md c h⟩ g []).Safe md g.results :=
    enter_safe (hvalid g hg) hg (by simp [hparams]) (Store.initial_binds md c h)
      fun f hf hfits => .outermost hfits (by rw [hf])
  rw [Machine.start, hemit.export_eq rfl hentry] at hs
  have hrun : (Machine.ofModule md c host).after n ((Machine.ofModule md c host).enter
      ⟨[], c.maxCallDepth, Store.initial md c h⟩ g []) = .next s := hs
  cases henter : (Machine.ofModule md c host).enter
      ⟨[], c.maxCallDepth, Store.initial md c h⟩ g [] with
  | halt r store =>
    rw [henter, Machine.after_halt] at hrun
    cases hrun
  | next q =>
    rw [henter] at hrun
    exact ⟨g.results, (Machine.regular_of_enter hsafe henter).after hvalid hrun⟩

end Program

end TypedScript
