import Synos.Interrupts.Routing
import Mathlib.Logic.Function.Iterate

namespace Synos.Interrupts

open Synos.Data

/-! What the lines make of the clock.  A controller holds a line back while one of
the same or of a higher priority is in service. -/

/-- The handler that the gate at the vector of the line leads to. -/
def InterruptSystem.handler? (system : InterruptSystem)
    (address : Handler → BitVec 64) (line : Fin 16) : Option Handler :=
  match lineVector? system.devices line with
  | none => none
  | some vector =>
      if (system.table vector).isPresent then
        Handler.all.find? fun handler =>
          (system.table vector).offset = address handler
      else none

/-- No line in service holds this one back; the slave is heard at line 2. -/
def Delivers (line : Fin 16) (state : IrqState) : Prop :=
  if hmaster : line.val < 8 then
    Priority.Precedes ⟨line, hmaster⟩ state.master.inService
  else
    Priority.Precedes ⟨2, by decide⟩ state.master.inService ∧
      Priority.Precedes ⟨line.val - 8, slaveLine_lt hmaster⟩
        state.slave.inService

instance (line : Fin 16) (state : IrqState) : Decidable (Delivers line state) :=
  inferInstanceAs (Decidable (dite _ _ _))

def holdBack (line : Fin 16) (state : IrqState) : IrqState :=
  if hmaster : line.val < 8 then
    { state with
      master := { state.master with
        requests := Priority.set state.master.requests ⟨line, hmaster⟩ } }
  else
    { state with
      slave := { state.slave with
        requests := Priority.set state.slave.requests
          ⟨line.val - 8, slaveLine_lt hmaster⟩ } }

/-- The controller of the line holds a request of it. -/
def Waits (line : Fin 16) (state : IrqState) : Prop :=
  if line.val < 8 then state.master.requests.getLsbD line.val = true
  else state.slave.requests.getLsbD (line.val - 8) = true

instance (line : Fin 16) (state : IrqState) : Decidable (Waits line state) :=
  inferInstanceAs (Decidable (ite _ _ _))

/-- The lines are raised one after the other; a delivered one without a handler
ends the run. -/
def lineMachine (system : InterruptSystem) (address : Handler → BitVec 64) :
    Machine (Fin 16) IrqState (Fin 16) where
  step state line :=
    if Delivers line state then
      match system.handler? address line with
      | some handler =>
          .ok (handler.effect (Interrupt.raise (.real line) state))
      | none => .error line
    else .ok (holdBack line state)

/-- The handler of the line acknowledges the master only. -/
def Jams (line : Fin 16) : Prop := 8 ≤ line.val ∧ line.val ≤ 10

instance : DecidablePred Jams := fun _ => inferInstanceAs (Decidable (_ ∧ _))

/-- Nothing but the first lines of the slave stays in service, and what waits is
held back. -/
structure Settled (state : IrqState) : Prop where
  master_eq : state.master.inService = 0
  slave_low : ∀ line : Fin 8, 3 ≤ line.val →
    state.slave.inService.getLsbD line = false
  held : ∀ line, Waits line state → ¬ Delivers line state

section

variable {image : Image} {syscallIsr : UInt8} {hasApic : Bool}
  {system after : InterruptSystem} {state : IrqState}

theorem effect_irq (line : Fin 16) : (Handler.irq line).effect = idt line := by
  rw [Handler.effect, Handler.line?_irq]

theorem picSoi_clock (irq : UInt8) : (picSoi irq state).1.clock = state.clock := by
  rw [picSoi]
  split
  · rfl
  · dsimp only
    split
    · rfl
    · split
      · rfl
      · rfl

theorem picEoi_clock (irq : UInt8) : (picEoi irq state).clock = state.clock := by
  rw [picEoi]
  split
  · rfl
  · rfl

theorem irqStub_clock {irq : UInt8} {handler : IrqState → IrqState}
    (hhandler : ∀ state, (handler state).clock = state.clock) :
    (irqStub irq handler state).clock = state.clock := by
  rw [irqStub]
  split
  · exact picSoi_clock irq
  · rw [icEoi, picEoi_clock, hhandler]
    exact picSoi_clock irq

theorem idt_eight_clock : (idt 8 state).clock = Cmos.irq8 state.clock := by
  have hstub : idt 8 = irqStub 8 tickClock := rfl
  rw [hstub, irqStub_other (by decide) (by decide), picEoi_clock, tickClock]

theorem idt_eq_still (line : Fin 16) (hline : line ≠ 8) :
    ∃ handler, idt line = irqStub (UInt8.ofNat line) handler ∧
      ∀ state : IrqState, (handler state).clock = state.clock := by
  fin_cases line
  case «4» => exact ⟨readSerial, rfl, fun _ => rfl⟩
  case «8» => exact absurd rfl hline
  all_goals exact ⟨id, rfl, fun _ => rfl⟩

theorem idt_clock_of_ne {line : Fin 16} (hline : line ≠ 8) :
    (idt line state).clock = state.clock := by
  obtain ⟨handler, hstub, hstill⟩ := idt_eq_still line hline
  rw [hstub]
  exact irqStub_clock hstill

theorem raise_clock (interrupt : Interrupt) :
    (interrupt.raise state).clock = state.clock := by
  cases interrupt with
  | real irq =>
      rw [Interrupt.raise]
      split
      · rfl
      · rfl
  | spurious7 => rfl
  | spurious15 => rfl

theorem find_all (handler : Handler) :
    Handler.all.find? (fun other => handler = other) = some handler := by
  cases handler <;> rfl

theorem find_offset {handler : Handler}
    (hinj : Function.Injective image.address)
    (hlow : ∀ handler, (image.address handler).toNat < 2 ^ 48) :
    Handler.all.find? (fun other =>
      (IdtEntry.ofAddress (image.address handler) intGateInterrupt).offset =
        image.address other) = some handler := by
  rw [offset_ofAddress_iff.mpr (hlow handler)]
  simp only [hinj.eq_iff]
  exact find_all handler

theorem handler_line (hinj : Function.Injective image.address)
    (hlow : ∀ handler, (image.address handler).toNat < 2 ^ 48)
    (hempty : ∀ vector, (system.table vector).isPresent = false)
    (hinit : interruptInit image syscallIsr hasApic system = .ok after)
    (line : Fin 16) :
    (∃ target : Fin 16, line.val = target.val + 4 ∧
      after.handler? image.address line = some (.irq target)) ∨
    (line.val < 4 ∧ syscallIsr.toNat = 96 + line.val ∧
      after.handler? image.address line = some .syscallFn) ∨
    (line.val < 4 ∧ syscallIsr.toNat ≠ 96 + line.val ∧
      after.handler? image.address line = none) := by
  by_cases hfree : Free syscallIsr
  · rw [interruptInit_of_free hfree] at hinit
    cases hinit
    have hpresent : ∀ handler, (IdtEntry.ofAddress (image.address handler)
        intGateInterrupt).isPresent = true :=
      fun handler => (leadsTo_ofAddress (hlow handler) (.inl rfl)).isPresent_eq
    cases @lineGate image syscallIsr hfree system.table line with
    | irq target hline hentry =>
        refine .inl ⟨target, hline, ?_⟩
        rw [InterruptSystem.handler?, lineVector_configured]
        simp only [hentry, hpresent, if_true]
        exact find_offset hinj hlow
    | syscall hline hsys hentry =>
        refine .inr (.inl ⟨hline, hsys, ?_⟩)
        rw [InterruptSystem.handler?, lineVector_configured]
        simp only [hentry, hpresent, if_true]
        exact find_offset hinj hlow
    | old hline hsys hentry =>
        refine .inr (.inr ⟨hline, hsys, ?_⟩)
        rw [InterruptSystem.handler?, lineVector_configured]
        simp [hentry, hempty]
  · rw [interruptInit_of_not_free hfree] at hinit
    cases hinit

/-! What a line leaves in the registers. -/

theorem delivers_iff (hmaster : state.master.inService = 0) (line : Fin 16) :
    Delivers line state ↔
      ∀ other : Fin 8, other.val + 8 ≤ line.val →
        state.slave.inService.getLsbD other = false := by
  have hzero : ∀ line : Fin 8, Priority.Precedes line state.master.inService :=
    fun line => hmaster ▸ Priority.precedes_zero line
  unfold Delivers
  split
  case isTrue hlow =>
    refine iff_of_true (hzero _) fun other hother => ?_
    omega
  case isFalse hhigh =>
    refine (and_iff_right (hzero _)).trans ?_
    refine forall_congr' fun other => imp_congr_left ?_
    change other.val ≤ line.val - 8 ↔ other.val + 8 ≤ line.val
    omega

theorem Settled.delivers_clock (hsettled : Settled state) :
    Delivers 12 state ↔ state.slave.inService = 0 := by
  rw [delivers_iff hsettled.master_eq]
  constructor
  · intro hnone
    apply BitVec.eq_of_getLsbD_eq
    intro index hindex
    refine Eq.trans ?_ BitVec.getLsbD_zero.symm
    by_cases hlow : index < 3
    · exact hnone ⟨index, hindex⟩ (show index + 8 ≤ 12 by omega)
    · exact hsettled.slave_low ⟨index, hindex⟩ (Nat.le_of_not_lt hlow)
  · intro hzero other _
    rw [hzero]
    exact BitVec.getLsbD_zero

theorem waits_holdBack {line other : Fin 16}
    (hwaits : Waits other (holdBack line state)) :
    other = line ∨ Waits other state := by
  by_cases hsame : other = line
  · exact .inl hsame
  · refine .inr ?_
    have hval : other.val ≠ line.val := fun heq => hsame (Fin.ext heq)
    unfold Waits holdBack at *
    by_cases hline : line.val < 8
    · rw [dif_pos hline] at hwaits
      by_cases hother : other.val < 8
      · rw [if_pos hother] at hwaits ⊢
        have hset := @Priority.getLsbD_set _ state.master.requests
          ⟨line.val, hline⟩ ⟨other.val, hother⟩
        have hne : ((⟨other.val, hother⟩ : Fin 8) == ⟨line.val, hline⟩) =
            false := by
          simpa using hval
        rw [hne, Bool.or_false] at hset
        exact hset.symm.trans hwaits
      · rw [if_neg hother] at hwaits ⊢
        exact hwaits
    · rw [dif_neg hline] at hwaits
      by_cases hother : other.val < 8
      · rw [if_pos hother] at hwaits ⊢
        exact hwaits
      · rw [if_neg hother] at hwaits ⊢
        have hset := @Priority.getLsbD_set _ state.slave.requests
          ⟨line.val - 8, slaveLine_lt hline⟩
          ⟨other.val - 8, slaveLine_lt hother⟩
        have hne : ((⟨other.val - 8, slaveLine_lt hother⟩ : Fin 8) ==
            ⟨line.val - 8, slaveLine_lt hline⟩) = false := by
          simp only [beq_eq_false_iff_ne, ne_eq, Fin.mk.injEq]
          omega
        rw [hne, Bool.or_false] at hset
        exact hset.symm.trans hwaits

/-- What a delivered line and its handler leave. -/
structure Served (line : Fin 16) (state next : IrqState) : Prop where
  master_eq : next.master.inService = state.master.inService
  slave_eq : ∀ other : Fin 8, next.slave.inService.getLsbD other =
    (state.slave.inService.getLsbD other ||
      decide (line.val = other.val + 8 ∧ line.val < 12))
  master_requests : next.master.requests = state.master.requests
  slave_requests : next.slave.requests = state.slave.requests

theorem picEoi_requests (irq : UInt8) :
    (picEoi irq state).master.requests = state.master.requests ∧
      (picEoi irq state).slave.requests = state.slave.requests := by
  unfold picEoi
  split <;> exact ⟨rfl, rfl⟩

theorem idt_other {target : Fin 16} (h7 : target ≠ 7) (h15 : target ≠ 15) :
    ∃ handler, Quiet handler ∧
      ∀ state, idt target state =
        picEoi (UInt8.ofNat target) (handler state) := by
  obtain ⟨handler, hquiet, hstub⟩ := idt_eq_stub target
  refine ⟨handler, hquiet, fun state => ?_⟩
  rw [hstub]
  exact irqStub_other (mt (ofNat_inj 7).mp h7) (mt (ofNat_inj 15).mp h15)

/-- The handler four lines below acknowledges the master, and from line 12 on the
slave too. -/
theorem served_idt {line target : Fin 16} (hline : line.val = target.val + 4)
    (hother : line ≠ 11) (hdelivers : Delivers line state) :
    Served line state (idt target (Interrupt.raise (.real line) state)) := by
  have h7 : target ≠ 7 := by
    rintro rfl
    exact hother (Fin.ext hline)
  have h15 : target ≠ 15 := by
    rintro rfl
    exact absurd line.isLt (by rw [hline]; decide)
  obtain ⟨handler, hquiet, hidt⟩ := idt_other h7 h15
  rw [hidt]
  have hrequests := @picEoi_requests
    (handler (Interrupt.raise (.real line) state)) (UInt8.ofNat target)
  rw [hquiet.master_eq, hquiet.slave_eq] at hrequests
  by_cases hmaster : line.val < 8
  · rw [Delivers, dif_pos hmaster] at hdelivers
    rw [raise_master hmaster] at hrequests ⊢
    refine ⟨?_, ?_, hrequests.1, hrequests.2⟩
    · rw [picEoi_master, hquiet.master_eq]
      exact Priority.clearFirst_set hdelivers
    · intro other
      rw [picEoi_slave, hquiet.slave_eq,
        if_neg (mt eight_le_ofNat.mp (by omega)),
        decide_eq_false (by omega), Bool.or_false]
  · rw [Delivers, dif_neg hmaster] at hdelivers
    rw [raise_slave hmaster] at hrequests ⊢
    refine ⟨?_, ?_, hrequests.1, hrequests.2⟩
    · rw [picEoi_master, hquiet.master_eq]
      exact Priority.clearFirst_set hdelivers.1
    · intro other
      rw [picEoi_slave, hquiet.slave_eq]
      by_cases hslave : line.val < 12
      · rw [if_neg (mt eight_le_ofNat.mp (by omega))]
        refine (Priority.getLsbD_set other).trans (congrArg _ ?_)
        rw [beq_eq_decide, decide_eq_decide, Fin.ext_iff]
        change other.val = line.val - 8 ↔ _
        omega
      · rw [if_pos (eight_le_ofNat.mpr (by omega)),
          decide_eq_false (by omega), Bool.or_false]
        exact congrArg (fun bits => bits.getLsbD other.val)
          (Priority.clearFirst_set hdelivers.2)

/-- What is held back stays so. -/
theorem Served.delivers {line other : Fin 16} {next : IrqState}
    (hserved : Served line state next) (hmaster : state.master.inService = 0)
    (hdelivers : Delivers other next) : Delivers other state := by
  rw [delivers_iff hmaster]
  rw [delivers_iff (hserved.master_eq.trans hmaster)] at hdelivers
  intro low hlow
  have hbit := hdelivers low hlow
  rw [hserved.slave_eq, Bool.or_eq_false_iff] at hbit
  exact hbit.1

theorem Served.settled {line : Fin 16} {next : IrqState}
    (hserved : Served line state next) (hother : line ≠ 11)
    (hsettled : Settled state) : Settled next := by
  have hne : line.val ≠ 11 := fun heq => hother (Fin.ext heq)
  refine ⟨hserved.master_eq.trans hsettled.master_eq, ?_, ?_⟩
  · intro low hlow
    rw [hserved.slave_eq, hsettled.slave_low low hlow, Bool.false_or,
      decide_eq_false_iff_not]
    omega
  · intro other hwaits hdelivers
    refine hsettled.held other ?_ (hserved.delivers hsettled.master_eq hdelivers)
    rwa [Waits, hserved.master_requests, hserved.slave_requests] at hwaits

/-- Only a line that its handler leaves in service holds line 12 back. -/
theorem Served.delivers_clock {line : Fin 16} {next : IrqState}
    (hserved : Served line state next) (hother : line ≠ 11)
    (hsettled : Settled state) :
    Delivers 12 next ↔ Delivers 12 state ∧ ¬ Jams line := by
  have hne : line.val ≠ 11 := fun heq => hother (Fin.ext heq)
  rw [delivers_iff hsettled.master_eq,
    delivers_iff (hserved.master_eq.trans hsettled.master_eq)]
  simp only [hserved.slave_eq, Bool.or_eq_false_iff, decide_eq_false_iff_not,
    Jams]
  constructor
  · intro hnone
    refine ⟨fun low hlow => (hnone low hlow).1, ?_⟩
    rintro ⟨hge, hle⟩
    have hlow : line.val - 8 < 8 := by omega
    exact (hnone ⟨line.val - 8, hlow⟩ (show line.val - 8 + 8 ≤ 12 by omega)).2
      ⟨show line.val = line.val - 8 + 8 by omega, by omega⟩
  · rintro ⟨hnone, hjams⟩ low hlow
    refine ⟨hnone low hlow, ?_⟩
    omega

theorem holdBack_settled {line : Fin 16} (hheld : ¬ Delivers line state)
    (hsettled : Settled state) :
    Settled (holdBack line state) ∧
      (Delivers 12 (holdBack line state) ↔ Delivers 12 state) ∧
      (holdBack line state).clock = state.clock := by
  have hsame : (holdBack line state).master.inService =
        state.master.inService ∧
      (holdBack line state).slave.inService = state.slave.inService ∧
      (holdBack line state).clock = state.clock := by
    unfold holdBack
    split <;> exact ⟨rfl, rfl, rfl⟩
  obtain ⟨hmaster, hslave, hclock⟩ := hsame
  have hdelivers : ∀ other, Delivers other (holdBack line state) ↔
      Delivers other state := by
    intro other
    rw [Delivers, Delivers, hmaster, hslave]
  refine ⟨⟨hmaster.trans hsettled.master_eq, ?_, ?_⟩, hdelivers 12, hclock⟩
  · intro low hlow
    rw [hslave]
    exact hsettled.slave_low low hlow
  · intro other hwaits
    rw [hdelivers]
    rcases waits_holdBack hwaits with rfl | hwaits
    · exact hheld
    · exact hsettled.held other hwaits

/-- What one line does to the clock. -/
theorem step_clock (hinj : Function.Injective image.address)
    (hlow : ∀ handler, (image.address handler).toNat < 2 ^ 48)
    (hempty : ∀ vector, (system.table vector).isPresent = false)
    (hinit : interruptInit image syscallIsr hasApic system = .ok after)
    {line : Fin 16} (hline : 4 ≤ line.val) (hother : line ≠ 11)
    (hsettled : Settled state) :
    ∃ next, (lineMachine after image.address).step state line = .ok next ∧
      Settled next ∧
      (Delivers 12 next ↔ Delivers 12 state ∧ ¬ Jams line) ∧
      next.clock =
        Cmos.irq8^[if line = 12 ∧ Delivers 12 state then 1 else 0]
          state.clock := by
  by_cases hdelivers : Delivers line state
  · obtain ⟨target, htarget, hhandler⟩ : ∃ target : Fin 16,
        line.val = target.val + 4 ∧
          after.handler? image.address line = some (.irq target) := by
      rcases handler_line hinj hlow hempty hinit line with
        hirq | ⟨hlt, -⟩ | ⟨hlt, -⟩
      · exact hirq
      · exact absurd hline (Nat.not_le_of_lt hlt)
      · exact absurd hline (Nat.not_le_of_lt hlt)
    have hserved := served_idt htarget hother hdelivers
    refine ⟨_, ?_, hserved.settled hother hsettled,
      hserved.delivers_clock hother hsettled, ?_⟩
    · simp only [lineMachine, hdelivers, hhandler, if_true, effect_irq]
    · by_cases htwelve : line = 12
      · have height : target = 8 := by
          subst htwelve
          exact Fin.ext (Nat.add_right_cancel htarget.symm)
        subst htwelve
        rw [height, idt_eight_clock, raise_clock, if_pos ⟨rfl, hdelivers⟩]
        rfl
      · have hne : target ≠ 8 := by
          rintro rfl
          exact htwelve (Fin.ext htarget)
        rw [idt_clock_of_ne hne, raise_clock, if_neg (fun h => htwelve h.1)]
        rfl
  · obtain ⟨hnext, hclock, hsame⟩ := holdBack_settled hdelivers hsettled
    refine ⟨_, by simp only [lineMachine, hdelivers, if_false], hnext, ?_, ?_⟩
    · rw [hclock, iff_self_and]
      intro hfree hjams
      -- a line of the slave below line 12 is held back together with it
      rw [delivers_iff hsettled.master_eq] at hdelivers hfree
      refine hdelivers fun low hlow => hfree low ?_
      exact Nat.le_trans hlow (Nat.le_trans hjams.2 (by decide))
    · rw [hsame, if_neg]
      · rfl
      · rintro ⟨rfl, hfree⟩
        exact hdelivers hfree

/-- The entry at the vector of one of the first lines is not present. -/
theorem handler_absent (hinj : Function.Injective image.address)
    (hlow : ∀ handler, (image.address handler).toNat < 2 ^ 48)
    (hempty : ∀ vector, (system.table vector).isPresent = false)
    (hinit : interruptInit image syscallIsr hasApic system = .ok after)
    {line : Fin 16} (hline : line.val < 4)
    (hsys : syscallIsr.toNat ≠ 96 + line.val) :
    after.handler? image.address line = none := by
  rcases handler_line hinj hlow hempty hinit line with
    ⟨target, htarget, -⟩ | ⟨-, hsame, -⟩ | ⟨-, -, hnone⟩
  · omega
  · exact absurd hsame hsys
  · exact hnone

theorem step_absent {line : Fin 16} (hline : line.val < 4)
    (hhandler : after.handler? image.address line = none)
    (hsettled : Settled state) :
    (lineMachine after image.address).step state line = .error line := by
  have hdelivers : Delivers line state := by
    rw [delivers_iff hsettled.master_eq]
    intro other hother
    omega
  simp only [lineMachine, hdelivers, hhandler, if_true]

theorem run_settled (hinj : Function.Injective image.address)
    (hlow : ∀ handler, (image.address handler).toNat < 2 ^ 48)
    (hempty : ∀ vector, (system.table vector).isPresent = false)
    (hinit : interruptInit image syscallIsr hasApic system = .ok after)
    {lines : List (Fin 16)} (hlines : ∀ line ∈ lines, 4 ≤ line.val ∧ line ≠ 11)
    (hsettled : Settled state) :
    Returns ((lineMachine after image.address).run state lines) fun last =>
      Settled last ∧ last.clock =
        Cmos.irq8^[if Delivers 12 state then
          (lines.takeWhile fun line => ¬ Jams line).count 12 else 0]
            state.clock := by
  induction lines generalizing state with
  | nil =>
      refine ⟨hsettled, ?_⟩
      rw [List.takeWhile_nil, List.count_nil, ite_self]
      rfl
  | cons line lines ih =>
      obtain ⟨⟨hge, hother⟩, hrest⟩ := List.forall_mem_cons.mp hlines
      obtain ⟨next, hstep, hnext, hdelivers, hclock⟩ :=
        step_clock hinj hlow hempty hinit hge hother hsettled
      rw [Machine.run, hstep]
      obtain ⟨last, hrun, hlast, hcount⟩ := returns_iff.mp (ih hrest hnext)
      refine returns_iff.mpr ⟨last, hrun, hlast, ?_⟩
      rw [hcount, hclock, ← Function.iterate_add_apply]
      refine congrArg (fun count => Cmos.irq8^[count] state.clock) ?_
      by_cases hfree : Delivers 12 state
      · by_cases hjams : Jams line
        · have hblocked : ¬ Delivers 12 next := fun h => (hdelivers.mp h).2 hjams
          have hne : line ≠ 12 := by
            rintro rfl
            exact absurd hjams (by decide)
          rw [if_neg hblocked, if_neg (fun h => hne h.1), if_pos hfree,
            List.takeWhile_cons_of_neg (by simpa using hjams), List.count_nil]
        · rw [if_pos (hdelivers.mpr ⟨hfree, hjams⟩), if_pos hfree,
            List.takeWhile_cons_of_pos (by simpa using hjams), List.count_cons]
          simp only [beq_iff_eq, hfree, and_true]
      · rw [if_neg (fun h => hfree (hdelivers.mp h).1),
          if_neg (fun h => hfree h.2), if_neg hfree]

/-- After `interrupt_init` the clock counts the interrupts of line 12, not those
of the clock chip on line 8, until one of the lines 8 to 10 stays in service;
line 11 is left out, whose handler returns from within `PIC_SOI`.  The first of
the lines below 4 ends the run. -/
theorem run_clock (hinj : Function.Injective image.address)
    (hlow : ∀ handler, (image.address handler).toNat < 2 ^ 48)
    (hempty : ∀ vector, (system.table vector).isPresent = false)
    (hsys : ∀ line : Fin 16, line.val < 4 → syscallIsr.toNat ≠ 96 + line.val)
    (hinit : interruptInit image syscallIsr hasApic system = .ok after)
    (hidle : Idle state) (hnone : ∀ line, ¬ Waits line state)
    {lines : List (Fin 16)} (hlines : ∀ line ∈ lines, line ≠ 11) :
    ((∀ line ∈ lines, 4 ≤ line.val) →
      Returns ((lineMachine after image.address).run state lines) fun last =>
        (∀ line, Waits line last → ¬ Delivers line last) ∧
          last.clock =
            Cmos.irq8^[(lines.takeWhile fun line => ¬ Jams line).count 12]
              state.clock) ∧
    ∀ line, lines.find? (fun line => line.val < 4) = some line →
      after.handler? image.address line = none ∧
        (lineMachine after image.address).run state lines = .error line := by
  have hsettled : Settled state := by
    refine ⟨hidle.master_eq, fun low _ => ?_, fun line hwaits =>
      absurd hwaits (hnone line)⟩
    rw [hidle.slave_eq]
    exact BitVec.getLsbD_zero
  have hfree : Delivers 12 state := hsettled.delivers_clock.mpr hidle.slave_eq
  constructor
  · intro hge
    obtain ⟨last, hrun, hlast, hcount⟩ := returns_iff.mp
      (run_settled hinj hlow hempty hinit
        (fun line hmem => ⟨hge line hmem, hlines line hmem⟩) hsettled)
    rw [if_pos hfree] at hcount
    exact returns_iff.mpr ⟨last, hrun, hlast.held, hcount⟩
  · intro line hfind
    obtain ⟨hlt, before, rest, rfl, hbefore⟩ :=
      List.find?_eq_some_iff_append.mp hfind
    have hline : line.val < 4 := of_decide_eq_true hlt
    obtain ⟨middle, hrun, hmiddle, -⟩ := returns_iff.mp
      (run_settled hinj hlow hempty hinit (fun other hmem =>
        ⟨by simpa using hbefore other hmem,
          hlines other (List.mem_append_left _ hmem)⟩) hsettled)
    have hhandler := handler_absent hinj hlow hempty hinit hline
      (hsys line hline)
    exact ⟨hhandler, Machine.run_append_error hrun
      (step_absent hline hhandler hmiddle)⟩

end

/-- The interrupt of line 8 holds the second one of line 12 back. -/
theorem run_clock_mouse : ∃ after,
    interruptInit kernelImage 0x80 false resetSystem = .ok after ∧
      Returns ((lineMachine after kernelImage.address).run resetState
          [4, 12, 8, 12])
        (fun last => last.clock = Cmos.irq8^[1] resetState.clock) ∧
      (lineMachine after kernelImage.address).run resetState [12, 0] =
        .error 0 := by
  have hinit := @interruptInit_of_free kernelImage 0x80 false resetSystem
    (by decide)
  refine ⟨_, hinit, ?_, ?_⟩
  · have hruns := (@run_clock _ _ _ _ _ resetState kernelImage_injective
      kernelImage_low resetSystem_empty (by decide) hinit ⟨rfl, rfl⟩
      (by decide) [4, 12, 8, 12] (by decide)).1 (by decide)
    obtain ⟨last, hrun, -, hclock⟩ := returns_iff.mp hruns
    exact returns_iff.mpr ⟨last, hrun, hclock⟩
  · exact ((@run_clock _ _ _ _ _ resetState kernelImage_injective
      kernelImage_low resetSystem_empty (by decide) hinit ⟨rfl, rfl⟩
      (by decide) [12, 0] (by decide)).2 0 (by decide)).2

end Synos.Interrupts
