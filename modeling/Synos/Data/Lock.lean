import Synos.Data.Machine
import Mathlib.Logic.Function.Basic

namespace Synos.Data

/-! Processors that share a state under a lock.  However their accesses are
interleaved, the calls take effect one after the other, in the order in which
they took the lock. -/

universe u v w x

/-- What a processor does while it holds the lock: accesses of which each one may
depend on what the last one left, and whether the lock is released at the end. -/
inductive Section (State : Type u) (Result : Type v)
  | leave (result : Result) (releases : Bool)
  | access (update : State → State) (next : State → Section State Result)

structure Outcome (State : Type u) (Result : Type v) where
  state : State
  result : Result
  releases : Bool

namespace Section

variable {State : Type u} {Result : Type v}

def exec : Section State Result → State → Outcome State Result
  | leave result releases, state => ⟨state, result, releases⟩
  | access update next, state => (next state).exec (update state)

def length : Section State Result → State → Nat
  | leave _ _, _ => 0
  | access update next, state => (next state).length (update state) + 1

end Section

/-- Where a processor is: it makes no call, it waits for the lock, or it holds the
lock with `rest` still to do. -/
inductive Phase (State : Type u) (Result : Type v) (Call : Type w)
  | idle
  | spinning (call : Call)
  | inside (call : Call) (rest : Section State Result)

/-- The last two fields are history: the calls in the order in which they took
the lock and the results returned, the newest first. -/
structure Shared (Agent : Type x) (State : Type u) (Result : Type v)
    (Call : Type w) where
  locked : Bool
  state : State
  phase : Agent → Phase State Result Call
  taken : List Call
  returned : List Result

inductive Move (Agent : Type x) (Call : Type w)
  | request (agent : Agent) (call : Call)
  | advance (agent : Agent)

section

variable {Agent : Type x} {State : Type u} {Result : Type v} {Call : Type w}
  [DecidableEq Agent]

def Shared.start (state : State) : Shared Agent State Result Call where
  locked := false
  state := state
  phase := fun _ => .idle
  taken := []
  returned := []

def Shared.setPhase (system : Shared Agent State Result Call) (agent : Agent)
    (phase : Phase State Result Call) : Shared Agent State Result Call :=
  { system with phase := Function.update system.phase agent phase }

/-- The lock is taken for `call`. -/
def Shared.enter (system : Shared Agent State Result Call) (agent : Agent)
    (call : Call) (rest : Section State Result) :
    Shared Agent State Result Call :=
  { system.setPhase agent (.inside call rest) with
    locked := true
    taken := call :: system.taken }

/-- One step of one processor.  A waiting one tries to exchange the lock, one
that holds it makes its next access or leaves. -/
def lockMachine (body : Call → Section State Result) :
    Machine Unit (Shared Agent State Result Call) (Move Agent Call) where
  step system
    | .request agent call =>
        match system.phase agent with
        | .idle => .ok (system.setPhase agent (.spinning call))
        | _ => .error ()
    | .advance agent =>
        match system.phase agent with
        | .idle => .error ()
        | .spinning call =>
            if system.locked then .ok system
            else .ok (system.enter agent call (body call))
        | .inside call (.access update next) =>
            .ok { system.setPhase agent (.inside call (next system.state)) with
              state := update system.state }
        | .inside _ (.leave result releases) =>
            .ok { system.setPhase agent .idle with
              locked := system.locked && !releases
              returned := result :: system.returned }

/-! The calls one after the other. -/

variable (body : Call → Section State Result) (initial : State)

/-- The state and the results after uninterrupted calls, given with the newest
first. -/
def serial : List Call → State × List Result
  | [] => (initial, [])
  | call :: past =>
      let outcome := (body call).exec (serial past).1
      (outcome.state, outcome.result :: (serial past).2)

def AllRelease : List Call → Prop
  | [] => True
  | call :: past =>
      ((body call).exec (serial body initial past).1).releases = true ∧
        AllRelease past

def Shared.Inside (system : Shared Agent State Result Call) (agent : Agent) :
    Prop :=
  ∃ call rest, system.phase agent = .inside call rest

instance (system : Shared Agent State Result Call) (agent : Agent) :
    Decidable (system.Inside agent) :=
  match hphase : system.phase agent with
  | .idle => .isFalse (by rintro ⟨call, rest, h⟩; simp [hphase] at h)
  | .spinning _ => .isFalse (by rintro ⟨call, rest, h⟩; simp [hphase] at h)
  | .inside call rest => .isTrue ⟨call, rest, hphase⟩

def Shared.Outside (system : Shared Agent State Result Call) (agent : Agent) :
    Prop :=
  ∀ call rest, system.phase agent ≠ .inside call rest

omit [DecidableEq Agent] in
theorem outside_of_not_inside {system : Shared Agent State Result Call}
    {agent : Agent} (h : ¬system.Inside agent) : system.Outside agent :=
  fun call rest hinside => h ⟨call, rest, hinside⟩

/-- The lock is free; or one processor holds it and what it has left to do ends
where its uninterrupted call ends; or a call has left without releasing it. -/
inductive Shared.Status (system : Shared Agent State Result Call) : Prop
  | free (unlocked : system.locked = false)
      (outside : ∀ agent, system.Outside agent)
      (serial_eq : serial body initial system.taken =
        (system.state, system.returned))
      (release : AllRelease body initial system.taken)
  | held (agent : Agent) (call : Call) (rest : Section State Result)
      (past : List Call)
      (locked : system.locked = true)
      (inside : system.phase agent = .inside call rest)
      (outside : ∀ other, other ≠ agent → system.Outside other)
      (taken_eq : system.taken = call :: past)
      (returned_eq : (serial body initial past).2 = system.returned)
      (exec_eq : rest.exec system.state =
        (body call).exec (serial body initial past).1)
      (release : AllRelease body initial past)
  | leaked (call : Call) (past : List Call)
      (locked : system.locked = true)
      (outside : ∀ agent, system.Outside agent)
      (serial_eq : serial body initial system.taken =
        (system.state, system.returned))
      (taken_eq : system.taken = call :: past)
      (release : AllRelease body initial past)
      (keeps : ((body call).exec
        (serial body initial past).1).releases = false)

variable {body initial}

/-! What one step can do. -/

inductive Shared.Step (body : Call → Section State Result)
    (system : Shared Agent State Result Call) :
    Shared Agent State Result Call → Prop
  | request (agent : Agent) (call : Call)
      (idle : system.phase agent = .idle) :
      Step body system (system.setPhase agent (.spinning call))
  | spin (agent : Agent) (call : Call)
      (spinning : system.phase agent = .spinning call)
      (locked : system.locked = true) : Step body system system
  | enter (agent : Agent) (call : Call)
      (spinning : system.phase agent = .spinning call)
      (unlocked : system.locked = false) :
      Step body system (system.enter agent call (body call))
  | access (agent : Agent) (call : Call) (update : State → State)
      (next : State → Section State Result)
      (inside : system.phase agent = .inside call (.access update next)) :
      Step body system
        { system.setPhase agent (.inside call (next system.state)) with
          state := update system.state }
  | leave (agent : Agent) (call : Call) (result : Result) (releases : Bool)
      (inside : system.phase agent = .inside call (.leave result releases)) :
      Step body system
        { system.setPhase agent .idle with
          locked := system.locked && !releases
          returned := result :: system.returned }

variable {system next : Shared Agent State Result Call} {agent other : Agent}

theorem step_cases {move : Move Agent Call}
    (hstep : (lockMachine body).step system move = .ok next) :
    system.Step body next := by
  cases move with
  | request agent call =>
      cases hphase : system.phase agent with
      | idle =>
          simp only [lockMachine, hphase] at hstep
          cases hstep
          exact .request agent call hphase
      | spinning other => simp [lockMachine, hphase] at hstep
      | inside other rest => simp [lockMachine, hphase] at hstep
  | advance agent =>
      cases hphase : system.phase agent with
      | idle => simp [lockMachine, hphase] at hstep
      | spinning call =>
          simp only [lockMachine, hphase] at hstep
          cases hlocked : system.locked with
          | true =>
              rw [hlocked, if_pos rfl] at hstep
              cases hstep
              exact .spin agent call hphase hlocked
          | false =>
              rw [hlocked, if_neg Bool.false_ne_true] at hstep
              cases hstep
              exact .enter agent call hphase hlocked
      | inside call rest =>
          cases rest with
          | leave result releases =>
              simp only [lockMachine, hphase] at hstep
              cases hstep
              exact .leave agent call result releases hphase
          | access update after =>
              simp only [lockMachine, hphase] at hstep
              cases hstep
              exact .access agent call update after hphase

@[simp] theorem setPhase_phase_self (phase : Phase State Result Call) :
    (system.setPhase agent phase).phase agent = phase := by
  simp [Shared.setPhase]

theorem setPhase_phase_of_ne (phase : Phase State Result Call)
    (hne : other ≠ agent) :
    (system.setPhase agent phase).phase other = system.phase other := by
  simp [Shared.setPhase, hne]

theorem outside_setPhase {phase : Phase State Result Call}
    (hphase : ∀ call rest, phase ≠ .inside call rest)
    (houtside : other ≠ agent → system.Outside other) :
    (system.setPhase agent phase).Outside other := by
  intro call rest
  by_cases hsame : other = agent
  · rw [hsame, setPhase_phase_self]
    exact hphase call rest
  · rw [setPhase_phase_of_ne phase hsame]
    exact houtside hsame call rest

omit [DecidableEq Agent] in
theorem not_outside {call : Call} {rest : Section State Result}
    (hinside : system.phase agent = .inside call rest) :
    ¬system.Outside agent :=
  fun houtside => houtside call rest hinside

/-! The status survives every step. -/

omit [DecidableEq Agent] in
theorem Shared.Status.start :
    (Shared.start initial : Shared Agent State Result Call).Status body
      initial := by
  refine .free rfl ?_ rfl trivial
  intro agent call rest h
  cases h

omit [DecidableEq Agent] in
theorem Shared.Status.held_of_inside (hstatus : system.Status body initial)
    {call : Call} {rest : Section State Result}
    (hinside : system.phase agent = .inside call rest) :
    ∃ past, system.locked = true ∧
      (∀ other, other ≠ agent → system.Outside other) ∧
      system.taken = call :: past ∧
      (serial body initial past).2 = system.returned ∧
      rest.exec system.state =
        (body call).exec (serial body initial past).1 ∧
      AllRelease body initial past := by
  cases hstatus with
  | free _ houtside => exact (not_outside hinside (houtside agent)).elim
  | leaked _ _ _ houtside => exact (not_outside hinside (houtside agent)).elim
  | held holder holding left past hlocked hholder houtside htaken hreturned
      hexec hrelease =>
      have hself : agent = holder := by
        by_contra hne
        exact not_outside hinside (houtside agent hne)
      subst hself
      rw [hholder, Phase.inside.injEq] at hinside
      obtain ⟨rfl, rfl⟩ := hinside
      exact ⟨past, hlocked, houtside, htaken, hreturned, hexec, hrelease⟩

theorem Shared.Status.setPhase {phase : Phase State Result Call}
    (hstatus : system.Status body initial)
    (hbefore : system.Outside agent)
    (hphase : ∀ call rest, phase ≠ .inside call rest) :
    (system.setPhase agent phase).Status body initial := by
  cases hstatus with
  | free hlocked houtside hserial hrelease =>
      exact .free hlocked
        (fun other => outside_setPhase hphase fun _ => houtside other) hserial
        hrelease
  | leaked call past hlocked houtside hserial htaken hrelease hkeeps =>
      exact .leaked call past hlocked
        (fun other => outside_setPhase hphase fun _ => houtside other) hserial
        htaken hrelease hkeeps
  | held holder call rest past hlocked hholder houtside htaken hreturned hexec
      hrelease =>
      have hne : holder ≠ agent := by
        rintro rfl
        exact not_outside hholder hbefore
      refine .held holder call rest past hlocked ?_ ?_ htaken hreturned hexec
        hrelease
      · rw [setPhase_phase_of_ne phase hne]
        exact hholder
      · intro other hother
        exact outside_setPhase hphase fun _ => houtside other hother

theorem Shared.Status.step {move : Move Agent Call}
    (hstatus : system.Status body initial)
    (hstep : (lockMachine body).step system move = .ok next) :
    next.Status body initial := by
  cases step_cases hstep with
  | request agent call hidle =>
      refine hstatus.setPhase ?_ fun _ _ h => by cases h
      intro other rest h
      rw [hidle] at h
      cases h
  | spin agent call hspinning hlocked => exact hstatus
  | enter agent call hspinning hunlocked =>
      cases hstatus with
      | leaked _ _ hlocked => simp [hlocked] at hunlocked
      | held _ _ _ _ hlocked => simp [hlocked] at hunlocked
      | free _ houtside hserial hrelease =>
          refine .held agent call (body call) system.taken rfl ?_ ?_ rfl ?_ ?_
            hrelease
          · exact setPhase_phase_self _
          · intro other hne call rest
            have hother := houtside other call rest
            rwa [← setPhase_phase_of_ne (.inside _ _) hne] at hother
          · rw [hserial]
            rfl
          · rw [hserial]
            rfl
  | access agent call update after hinside =>
      obtain ⟨past, hlocked, houtside, htaken, hreturned, hexec, hrelease⟩ :=
        hstatus.held_of_inside hinside
      refine .held agent call (after system.state) past hlocked ?_ ?_ htaken
        hreturned hexec hrelease
      · exact setPhase_phase_self _
      · intro other hne call rest
        have hother := houtside other hne call rest
        rwa [← setPhase_phase_of_ne (.inside _ _) hne] at hother
  | leave agent call result releases hinside =>
      obtain ⟨past, hlocked, houtside, htaken, hreturned, hexec, hrelease⟩ :=
        hstatus.held_of_inside hinside
      have hout : ∀ other, (system.setPhase agent .idle).Outside other :=
        fun other => outside_setPhase (fun _ _ h => by cases h)
          (houtside other)
      have hserial : serial body initial system.taken =
          (system.state, result :: system.returned) := by
        rw [htaken, serial, ← hexec, hreturned]
        rfl
      have hreleases : ((body call).exec
          (serial body initial past).1).releases = releases := by
        rw [← hexec]
        rfl
      cases releases with
      | true =>
          refine .free ?_ hout hserial ?_
          · simp
          · exact htaken ▸ ⟨hreleases, hrelease⟩
      | false =>
          refine .leaked call past ?_ hout hserial htaken hrelease hreleases
          simpa using hlocked

theorem run_status {moves : List (Move Agent Call)}
    (hstatus : system.Status body initial)
    (hrun : (lockMachine body).run system moves = .ok next) :
    next.Status body initial := by
  induction moves generalizing system with
  | nil =>
      cases hrun
      exact hstatus
  | cons move moves ih =>
      obtain ⟨middle, hstep, hrest⟩ := Machine.run_cons_ok.mp hrun
      exact ih (hstatus.step hstep) hrest

omit [DecidableEq Agent] in
theorem Shared.Status.exclusive (hstatus : system.Status body initial)
    (hfirst : system.Inside agent) (hsecond : system.Inside other) :
    agent = other := by
  obtain ⟨call, rest, hfirst⟩ := hfirst
  obtain ⟨again, left, hsecond⟩ := hsecond
  obtain ⟨past, -, houtside, -⟩ := hstatus.held_of_inside hfirst
  by_contra hne
  exact not_outside hsecond (houtside other fun h => hne h.symm)

omit [DecidableEq Agent] in
theorem Shared.Status.locked_of_inside (hstatus : system.Status body initial)
    (hinside : system.Inside agent) : system.locked = true := by
  obtain ⟨call, rest, hinside⟩ := hinside
  obtain ⟨past, hlocked, -⟩ := hstatus.held_of_inside hinside
  exact hlocked

/-! A waiting processor can be served as long as every call has released the
lock. -/

omit [DecidableEq Agent] in
theorem Shared.Status.unlocked_or_held (hstatus : system.Status body initial)
    (hrelease : AllRelease body initial system.taken) :
    system.locked = false ∨
      ∃ holder call rest, system.phase holder = .inside call rest ∧
        (rest.exec system.state).releases = true := by
  cases hstatus with
  | free hlocked => exact .inl hlocked
  | held holder call rest past _ hinside _ htaken _ hexec _ =>
      refine .inr ⟨holder, call, rest, hinside, ?_⟩
      rw [htaken] at hrelease
      rw [hexec]
      exact hrelease.1
  | leaked call past _ _ _ htaken _ hkeeps =>
      rw [htaken] at hrelease
      rw [hrelease.1] at hkeeps
      cases hkeeps

theorem step_advance_inside {call : Call} {update : State → State}
    {after : State → Section State Result}
    (hinside : system.phase agent = .inside call (.access update after)) :
    (lockMachine body).step system (.advance agent) =
      .ok { system.setPhase agent (.inside call (after system.state)) with
        state := update system.state } := by
  simp only [lockMachine, hinside]

theorem run_finish {call : Call} {rest : Section State Result}
    (hinside : system.phase agent = .inside call rest) :
    ∃ next, (lockMachine body).run system
        (List.replicate (rest.length system.state + 1) (.advance agent)) =
          .ok next ∧
      next.phase agent = .idle ∧
      next.locked =
        (system.locked && !(rest.exec system.state).releases) ∧
      next.taken = system.taken ∧
      ∀ other, other ≠ agent → next.phase other = system.phase other := by
  induction rest generalizing system with
  | leave result releases =>
      refine ⟨{ system.setPhase agent .idle with
        locked := system.locked && !releases
        returned := result :: system.returned }, ?_, ?_, rfl, rfl, ?_⟩
      · apply Machine.run_cons_ok.mpr
        refine ⟨_, ?_, rfl⟩
        simp only [lockMachine, hinside]
      · exact setPhase_phase_self _
      · intro other hne
        exact setPhase_phase_of_ne _ hne
  | access update after ih =>
      have hnext : (system.setPhase agent
          (.inside call (after system.state))).phase agent =
            .inside call (after system.state) := setPhase_phase_self _
      obtain ⟨next, hrun, hidle, hlocked, htaken, hothers⟩ :=
        @ih system.state
          { system.setPhase agent (.inside call (after system.state)) with
            state := update system.state } hnext
      refine ⟨next, ?_, hidle, hlocked, htaken, ?_⟩
      · rw [Section.length, List.replicate_succ]
        exact Machine.run_cons_ok.mpr ⟨_, step_advance_inside hinside, hrun⟩
      · intro other hne
        rw [hothers other hne]
        exact setPhase_phase_of_ne _ hne

theorem step_advance_spinning {call : Call}
    (hspinning : system.phase agent = .spinning call)
    (hunlocked : system.locked = false) :
    (lockMachine body).step system (.advance agent) =
      .ok (system.enter agent call (body call)) := by
  simp only [lockMachine, hspinning, hunlocked, Bool.false_eq_true, if_false]

theorem run_of_unlocked {call : Call}
    (hspinning : system.phase agent = .spinning call)
    (hunlocked : system.locked = false) :
    ∃ moves next, (lockMachine body).run system moves = .ok next ∧
      next.phase agent = .idle := by
  have hinside : (system.enter agent call (body call)).phase agent =
      .inside call (body call) := setPhase_phase_self _
  obtain ⟨next, hrun, hidle, -⟩ :=
    @run_finish _ _ _ _ _ body _ agent call _ hinside
  exact ⟨_, next,
    Machine.run_cons_ok.mpr ⟨_, step_advance_spinning hspinning hunlocked, hrun⟩,
    hidle⟩

theorem Shared.Status.completes (hstatus : system.Status body initial)
    {call : Call} (hspinning : system.phase agent = .spinning call)
    (hrelease : AllRelease body initial system.taken) :
    ∃ moves next, (lockMachine body).run system moves = .ok next ∧
      next.phase agent = .idle := by
  cases hstatus.unlocked_or_held hrelease with
  | inl hunlocked => exact run_of_unlocked hspinning hunlocked
  | inr hheld =>
      obtain ⟨holder, holding, rest, hinside, hreleases⟩ := hheld
      have hne : agent ≠ holder := by
        rintro rfl
        rw [hspinning] at hinside
        cases hinside
      obtain ⟨middle, hleft, -, hlocked, -, hothers⟩ :=
        @run_finish _ _ _ _ _ body _ holder holding rest hinside
      rw [hreleases, Bool.not_true, Bool.and_false] at hlocked
      rw [← hothers agent hne] at hspinning
      obtain ⟨moves, next, hrun, hidle⟩ :=
        @run_of_unlocked _ _ _ _ _ body _ agent call hspinning hlocked
      exact ⟨_, next, Machine.run_append_ok.mpr ⟨middle, hleft, hrun⟩, hidle⟩

/-- Calls that all release the lock can be made one after the other, each by a
processor of its own choice. -/
theorem exists_run_of_allRelease {past : List (Agent × Call)}
    (hrelease : AllRelease body initial (past.map Prod.snd)) :
    ∃ moves system, (lockMachine body).run
        (.start initial : Shared Agent State Result Call) moves = .ok system ∧
      system.locked = false ∧ (∀ agent, system.phase agent = .idle) ∧
      system.taken = past.map Prod.snd := by
  induction past with
  | nil => exact ⟨[], .start initial, rfl, rfl, fun _ => rfl, rfl⟩
  | cons entry past ih =>
      obtain ⟨agent, call⟩ := entry
      obtain ⟨hreleases, hpast⟩ := hrelease
      obtain ⟨moves, system, hrun, hunlocked, hidle, htaken⟩ := ih hpast
      have hstate : (serial body initial (past.map Prod.snd)).1 =
          system.state := by
        cases run_status Shared.Status.start hrun with
        | free _ _ hserial => rw [← htaken, hserial]
        | held holder _ _ _ _ hinside => simp [hidle holder] at hinside
        | leaked _ _ hlocked => simp [hunlocked] at hlocked
      have hrequest : (lockMachine body).step system (.request agent call) =
          .ok (system.setPhase agent (.spinning call)) := by
        simp only [lockMachine, hidle agent]
      have henter := @step_advance_spinning _ _ _ _ _ body
        (system.setPhase agent (.spinning call)) agent call
        (setPhase_phase_self _) hunlocked
      obtain ⟨next, hfinish, hleft, hlocked, hsame, hothers⟩ :=
        @run_finish _ _ _ _ _ body
          ((system.setPhase agent (.spinning call)).enter agent call
            (body call)) agent call (body call) (setPhase_phase_self _)
      refine ⟨_, next, Machine.run_append_ok.mpr ⟨system, hrun,
        Machine.run_cons_ok.mpr ⟨_, hrequest,
          Machine.run_cons_ok.mpr ⟨_, henter, hfinish⟩⟩⟩, ?_, ?_, ?_⟩
      · have hexec : ((body call).exec system.state).releases = true :=
          hstate ▸ hreleases
        simp [hlocked, Shared.enter, Shared.setPhase, hexec]
      · intro other
        by_cases hsameAgent : other = agent
        · rw [hsameAgent, hleft]
        · rw [hothers other hsameAgent]
          simp only [Shared.enter, Shared.setPhase,
            Function.update_of_ne hsameAgent]
          exact hidle other
      · rw [hsame]
        exact congrArg (call :: ·) htaken

/-- Once a call has not released the lock, or is bound not to, nobody else takes
it. -/
theorem Shared.Status.step_blocked (hstatus : system.Status body initial)
    (hblocked : ¬AllRelease body initial system.taken) {call : Call}
    (hspinning : system.phase agent = .spinning call) {move : Move Agent Call}
    (hstep : (lockMachine body).step system move = .ok next) :
    next.taken = system.taken ∧ next.phase agent = .spinning call := by
  have hkeep : ∀ {mover : Agent} {phase : Phase State Result Call},
      system.phase mover ≠ .spinning call →
        (system.setPhase mover phase).phase agent = .spinning call := by
    intro mover phase hmover
    rw [setPhase_phase_of_ne phase, hspinning]
    rintro rfl
    exact hmover hspinning
  cases step_cases hstep with
  | request mover other hidle =>
      exact ⟨rfl, hkeep (by simp [hidle])⟩
  | spin mover other _ _ => exact ⟨rfl, hspinning⟩
  | enter mover other _ hunlocked =>
      cases hstatus with
      | free _ _ _ hrelease => exact (hblocked hrelease).elim
      | held _ _ _ _ hlocked => simp [hlocked] at hunlocked
      | leaked _ _ hlocked => simp [hlocked] at hunlocked
  | access mover other update after hinside =>
      exact ⟨rfl, hkeep (by simp [hinside])⟩
  | leave mover other result releases hinside =>
      exact ⟨rfl, hkeep (by simp [hinside])⟩

theorem Shared.Status.run_blocked (hstatus : system.Status body initial)
    (hblocked : ¬AllRelease body initial system.taken) {call : Call}
    (hspinning : system.phase agent = .spinning call)
    {moves : List (Move Agent Call)}
    (hrun : (lockMachine body).run system moves = .ok next) :
    next.phase agent = .spinning call := by
  induction moves generalizing system with
  | nil =>
      cases hrun
      exact hspinning
  | cons move moves ih =>
      obtain ⟨middle, hstep, hrest⟩ := Machine.run_cons_ok.mp hrun
      obtain ⟨htaken, hphase⟩ := hstatus.step_blocked hblocked hspinning hstep
      exact ih (hstatus.step hstep) (htaken ▸ hblocked) hphase hrest

/-- A waiting processor can still have its call done if and only if every call
that took the lock so far releases it. -/
theorem Shared.Status.served_iff (hstatus : system.Status body initial)
    {call : Call} (hspinning : system.phase agent = .spinning call) :
    (∃ moves next, (lockMachine body).run system moves = .ok next ∧
        next.phase agent = .idle) ↔
      AllRelease body initial system.taken := by
  constructor
  · rintro ⟨moves, next, hrun, hidle⟩
    by_contra hblocked
    rw [hstatus.run_blocked hblocked hspinning hrun] at hidle
    cases hidle
  · exact hstatus.completes hspinning

end

end Synos.Data
