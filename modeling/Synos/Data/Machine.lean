import Mathlib.Data.List.Basic

namespace Synos.Data

universe u v w x

/-! Deterministic machines whose steps may fail to return, and the rule that
turns a step invariant into an invariant of every guarded run. -/

/-- The ways in which a call can fail to return. -/
inductive Fault
  | spin
  | nullDereference
  | pageFault
  | endlessLoop
  | panic
  /-- A signed operation whose result the language leaves undefined. -/
  | intOverflow
  deriving DecidableEq, Repr

/-- The call returns, and its result satisfies `post`. -/
def Returns {Failure : Type u} {Result : Type v} (call : Except Failure Result)
    (post : Result → Prop) : Prop :=
  match call with
  | .ok result => post result
  | .error _ => False

instance {Failure : Type u} {Result : Type v} (call : Except Failure Result)
    (post : Result → Prop) [∀ result, Decidable (post result)] :
    Decidable (Returns call post) :=
  match call with
  | .ok result => inferInstanceAs (Decidable (post result))
  | .error _ => inferInstanceAs (Decidable False)

theorem returns_ok {Failure : Type u} {Result : Type v} {result : Result}
    {post : Result → Prop} :
    Returns (.ok result : Except Failure Result) post ↔ post result := Iff.rfl

theorem returns_iff {Failure : Type u} {Result : Type v}
    {call : Except Failure Result} {post : Result → Prop} :
    Returns call post ↔ ∃ result, call = .ok result ∧ post result := by
  cases call with
  | ok result => simp [Returns]
  | error failure => simp [Returns]

def Fails {Failure : Type u} {Result : Type v} (call : Except Failure Result)
    (failure : Failure) : Prop :=
  match call with
  | .ok _ => False
  | .error other => other = failure

instance {Failure : Type u} {Result : Type v} [DecidableEq Failure]
    (call : Except Failure Result) (failure : Failure) :
    Decidable (Fails call failure) :=
  match call with
  | .ok _ => inferInstanceAs (Decidable False)
  | .error other => inferInstanceAs (Decidable (other = failure))

theorem fails_iff {Failure : Type u} {Result : Type v}
    {call : Except Failure Result} {failure : Failure} :
    Fails call failure ↔ call = .error failure := by
  cases call with
  | ok result => simp [Fails]
  | error other => simp [Fails]

theorem exists_of_map_eq_ok {Failure : Type u} {Result : Type v}
    {Value : Type w} {call : Except Failure Result} {view : Result → Value}
    {value : Value} (hcall : call.map view = .ok value) :
    ∃ result, call = .ok result ∧ view result = value := by
  cases call with
  | ok result => exact ⟨result, rfl, Except.ok.inj hcall⟩
  | error failure => cases hcall

theorem bind_eq_ok {Failure : Type u} {Result Value : Type v}
    {call : Except Failure Result} {rest : Result → Except Failure Value}
    {value : Value} :
    (call >>= rest) = .ok value ↔
      ∃ result, call = .ok result ∧ rest result = .ok value := by
  cases call with
  | error failure =>
      constructor
      · intro hbind
        cases hbind
      · rintro ⟨result, hresult, -⟩
        cases hresult
  | ok result =>
      constructor
      · intro hbind
        exact ⟨result, rfl, hbind⟩
      · rintro ⟨other, hother, hrest⟩
        cases hother
        exact hrest

/-- The calls fail alike, or both return and the results are related. -/
def Simulates {Failure : Type u} {Result : Type v} {Other : Type w}
    (rel : Result → Other → Prop) :
    Except Failure Result → Except Failure Other → Prop
  | .ok result, .ok other => rel result other
  | .error failure, .error other => failure = other
  | _, _ => False

section

variable {Failure : Type u} {Result : Type v} {Other : Type w}
  {rel : Result → Other → Prop} {call : Except Failure Result}
  {other : Except Failure Other}

theorem Simulates.cases (hsim : Simulates rel call other) :
    (∃ failure, call = .error failure ∧ other = .error failure) ∨
      ∃ first second, call = .ok first ∧ other = .ok second ∧
        rel first second := by
  cases call with
  | error failure =>
      cases other with
      | error same => exact .inl ⟨failure, rfl, congrArg _ hsim.symm⟩
      | ok second => exact hsim.elim
  | ok first =>
      cases other with
      | error failure => exact hsim.elim
      | ok second => exact .inr ⟨first, second, rfl, rfl, hsim⟩

theorem Simulates.symm (hsim : Simulates rel call other) :
    Simulates (fun second first => rel first second) other call := by
  rcases hsim.cases with ⟨failure, rfl, rfl⟩ | ⟨first, second, rfl, rfl, hrel⟩
  · rfl
  · exact hrel

theorem Simulates.error_left {failure : Failure}
    (hsim : Simulates rel call other) (hother : other = .error failure) :
    call = .error failure := by
  rcases hsim.cases with ⟨same, hcall, hsame⟩ | ⟨first, second, -, hsecond, -⟩
  · rw [hother] at hsame
    cases hsame
    exact hcall
  · rw [hother] at hsecond
    cases hsecond

theorem Simulates.exists_left {second : Other} (hsim : Simulates rel call other)
    (hother : other = .ok second) :
    ∃ first, call = .ok first ∧ rel first second := by
  rcases hsim.cases with ⟨failure, -, herror⟩ | ⟨first, same, hcall, hsame, hrel⟩
  · rw [herror] at hother
    cases hother
  · rw [hsame] at hother
    cases hother
    exact ⟨first, hcall, hrel⟩

theorem Simulates.exists_right {first : Result} (hsim : Simulates rel call other)
    (hcall : call = .ok first) :
    ∃ second, other = .ok second ∧ rel first second :=
  hsim.symm.exists_left hcall

end

structure Machine (Failure : Type u) (State : Type v) (Op : Type w) where
  step : State → Op → Except Failure State

namespace Machine

variable {Failure : Type u} {State : Type v} {Op : Type w}

def run (machine : Machine Failure State Op) :
    State → List Op → Except Failure State
  | state, [] => .ok state
  | state, op :: ops =>
      match machine.step state op with
      | .ok next => machine.run next ops
      | .error failure => .error failure

/-- Every operation of the run meets `guard` in the state it is applied to. -/
def Guarded (machine : Machine Failure State Op)
    (guard : State → Op → Prop) : State → List Op → Prop
  | _, [] => True
  | state, op :: ops =>
      guard state op ∧
        ∀ next, machine.step state op = .ok next →
          machine.Guarded guard next ops

instance (machine : Machine Failure State Op) (guard : State → Op → Prop)
    [∀ state op, Decidable (guard state op)] :
    ∀ state ops, Decidable (machine.Guarded guard state ops)
  | _, [] => .isTrue trivial
  | state, op :: ops =>
      have : Decidable (∀ next, machine.step state op = .ok next →
          machine.Guarded guard next ops) :=
        match hstep : machine.step state op with
        | .ok next =>
            have := instDecidableGuarded machine guard next ops
            decidable_of_iff (machine.Guarded guard next ops) (by simp)
        | .error _ => .isTrue (by simp)
      inferInstanceAs (Decidable (_ ∧ _))

variable {machine : Machine Failure State Op}
  {guard : State → Op → Prop} {Inv : State → Prop}

@[simp] theorem run_nil (state : State) :
    machine.run state [] = .ok state := rfl

theorem run_cons_ok {state last : State} {op : Op} {ops : List Op} :
    machine.run state (op :: ops) = .ok last ↔
      ∃ next, machine.step state op = .ok next ∧
        machine.run next ops = .ok last := by
  cases hstep : machine.step state op with
  | error failure => simp [run, hstep]
  | ok next => simp [run, hstep]

theorem run_append_ok {state last : State} {first second : List Op} :
    machine.run state (first ++ second) = .ok last ↔
      ∃ middle, machine.run state first = .ok middle ∧
        machine.run middle second = .ok last := by
  induction first generalizing state with
  | nil => simp
  | cons op ops ih =>
      simp only [List.cons_append, run_cons_ok, ih]
      constructor
      · rintro ⟨next, hstep, middle, hrun, hlast⟩
        exact ⟨middle, ⟨next, hstep, hrun⟩, hlast⟩
      · rintro ⟨middle, ⟨next, hstep, hrun⟩, hlast⟩
        exact ⟨next, hstep, middle, hrun, hlast⟩

theorem run_append_error {state middle : State} {first second : List Op}
    {op : Op} {failure : Failure} (hrun : machine.run state first = .ok middle)
    (hstep : machine.step middle op = .error failure) :
    machine.run state (first ++ op :: second) = .error failure := by
  induction first generalizing state with
  | nil =>
      cases hrun
      simp only [List.nil_append, run, hstep]
  | cons head first ih =>
      obtain ⟨next, hhead, hnext⟩ := run_cons_ok.mp hrun
      simp only [List.cons_append, run, hhead]
      exact ih hnext

theorem guarded_append {state : State} {first second : List Op} :
    machine.Guarded guard state (first ++ second) ↔
      machine.Guarded guard state first ∧
        ∀ middle, machine.run state first = .ok middle →
          machine.Guarded guard middle second := by
  induction first generalizing state with
  | nil => simp [Guarded]
  | cons op ops ih =>
      simp only [List.cons_append, Guarded, ih, run_cons_ok]
      constructor
      · rintro ⟨hop, hnext⟩
        refine ⟨⟨hop, fun next hstep => (hnext next hstep).1⟩, ?_⟩
        rintro middle ⟨next, hstep, hrun⟩
        exact (hnext next hstep).2 middle hrun
      · rintro ⟨⟨hop, hnext⟩, hmiddle⟩
        exact ⟨hop, fun next hstep => ⟨hnext next hstep,
          fun middle hrun => hmiddle middle ⟨next, hstep, hrun⟩⟩⟩

/-- The induction behind every statement about whole runs. -/
theorem run_invariant
    (hstep : ∀ state op next, Inv state → guard state op →
      machine.step state op = .ok next → Inv next)
    {state last : State} {ops : List Op}
    (hinit : Inv state) (hguard : machine.Guarded guard state ops)
    (hrun : machine.run state ops = .ok last) : Inv last := by
  induction ops generalizing state with
  | nil =>
      cases hrun
      exact hinit
  | cons op ops ih =>
      obtain ⟨next, hnext, hrest⟩ := run_cons_ok.mp hrun
      exact ih (hstep state op next hinit hguard.1 hnext)
        (hguard.2 next hnext) hrest

/-- Progress under an invariant that also looks at a record of the operations so
far. -/
theorem run_completes_record {Record : Type x} {record : Record → Op → Record}
    {Inv : Record → State → Prop}
    (hprogress : ∀ past state op, Inv past state → guard state op →
      ∃ next, machine.step state op = .ok next ∧ Inv (record past op) next)
    {past : Record} {state : State} {ops : List Op}
    (hinit : Inv past state) (hguard : machine.Guarded guard state ops) :
    ∃ last, machine.run state ops = .ok last ∧
      Inv (ops.foldl record past) last := by
  induction ops generalizing past state with
  | nil => exact ⟨state, rfl, hinit⟩
  | cons op ops ih =>
      obtain ⟨next, hnext, hinv⟩ := hprogress past state op hinit hguard.1
      obtain ⟨last, hrun, hlast⟩ := ih hinv (hguard.2 next hnext)
      exact ⟨last, run_cons_ok.mpr ⟨next, hnext, hrun⟩, hlast⟩

/-- A machine that can step from every state of an invariant completes every
guarded run. -/
theorem run_completes
    (hprogress : ∀ state op, Inv state → guard state op →
      ∃ next, machine.step state op = .ok next ∧ Inv next)
    {state : State} {ops : List Op}
    (hinit : Inv state) (hguard : machine.Guarded guard state ops) :
    ∃ last, machine.run state ops = .ok last ∧ Inv last :=
  @run_completes_record Failure State Op machine guard Unit (fun _ _ => ())
    (fun _ state => Inv state) (fun _ => hprogress) () state ops hinit hguard

theorem run_ne_error {failure : Failure}
    (hstep : ∀ state op, Inv state → guard state op →
      machine.step state op ≠ .error failure ∧
        ∀ next, machine.step state op = .ok next → Inv next)
    {state : State} {ops : List Op}
    (hinit : Inv state) (hguard : machine.Guarded guard state ops) :
    machine.run state ops ≠ .error failure := by
  induction ops generalizing state with
  | nil => simp
  | cons op ops ih =>
      obtain ⟨hne, hnext⟩ := hstep state op hinit hguard.1
      cases hresult : machine.step state op with
      | error other =>
          rw [hresult] at hne
          simpa [run, hresult] using hne
      | ok next =>
          simpa only [run, hresult] using
            ih (hnext next hresult) (hguard.2 next hresult)

/-! Two machines, step by step. -/

section

variable {Other : Type x} {other : Machine Failure Other Op}
  {rel : State → Other → Prop} {otherGuard : Other → Op → Prop}

theorem run_simulates
    (hstep : ∀ state twin op, rel state twin → guard state op →
      Simulates rel (machine.step state op) (other.step twin op))
    {state : State} {twin : Other} {ops : List Op} (hrel : rel state twin)
    (hguard : machine.Guarded guard state ops) :
    Simulates rel (machine.run state ops) (other.run twin ops) := by
  induction ops generalizing state twin with
  | nil => exact hrel
  | cons op ops ih =>
      rcases (hstep state twin op hrel hguard.1).cases with
        ⟨failure, hfirst, hsecond⟩ | ⟨next, after, hfirst, hsecond, hnext⟩
      · simp only [run, hfirst, hsecond]
        rfl
      · simp only [run, hfirst, hsecond]
        exact ih hnext (hguard.2 next hfirst)

theorem guarded_simulates
    (hstep : ∀ state twin op, rel state twin → guard state op →
      Simulates rel (machine.step state op) (other.step twin op))
    (hguards : ∀ state twin op, rel state twin → guard state op →
      otherGuard twin op)
    {state : State} {twin : Other} {ops : List Op} (hrel : rel state twin)
    (hguard : machine.Guarded guard state ops) :
    other.Guarded otherGuard twin ops := by
  induction ops generalizing state twin with
  | nil => trivial
  | cons op ops ih =>
      refine ⟨hguards state twin op hrel hguard.1, fun after hafter => ?_⟩
      obtain ⟨next, hnext, hrest⟩ :=
        (hstep state twin op hrel hguard.1).exists_left hafter
      exact ih hrest (hguard.2 next hnext)

end

end Machine

end Synos.Data
