import Synos.Data.Preempt
import Synos.Interrupts.Acknowledge
import Synos.Interrupts.Idt

namespace Synos.Interrupts

open Synos.Data

/-! Code that is interrupted goes on as if nothing had happened, as far as it
uses the registers that the handlers keep. -/

def lowByte (value : BitVec 64) : UInt8 := UInt8.ofNat value.toNat

/-- The functions called do to the devices and the clock what their sources
say. -/
structure Implements (env : Symbol → Cpu IrqState → Cpu IrqState) : Prop where
  icSoi_eq : ∀ cpu, (env .icSoi cpu).world =
    (icSoi (lowByte (cpu.regs .rdi)) cpu.world).1
  icEoi_eq : ∀ cpu, (env .icEoi cpu).world =
    icEoi (lowByte (cpu.regs .rdi)) cpu.world
  readSerial_eq : ∀ cpu, (env .readSerial cpu).world = readSerial cpu.world
  msUpdate_eq : ∀ cpu, (env .msUpdate cpu).world =
    { cpu.world with clock := Cmos.msUpdate cpu.world.clock }

section

variable {env : Symbol → Cpu IrqState → Cpu IrqState} {irq : BitVec 64}
  {body : Code}

theorem soi_world (himpl : Implements env) (cpu : Cpu IrqState) :
    (cpu.execAll env (soi irq)).world =
      (icSoi (lowByte irq) cpu.world).1 := by
  change (env .icSoi ((cpu.push (cpu.regs .rdi)).setReg .rdi irq)).world = _
  rw [himpl.icSoi_eq, Cpu.setReg_regs_self]
  rfl

theorem eoi_world (himpl : Implements env) (cpu : Cpu IrqState) :
    (cpu.execAll env (eoi irq)).world = icEoi (lowByte irq) cpu.world := by
  change (env .icEoi ((cpu.push (cpu.regs .rdi)).setReg .rdi irq)).world = _
  rw [himpl.icEoi_eq, Cpu.setReg_regs_self]
  rfl

theorem irqCode_world {handler : IrqState → IrqState} {number : UInt8}
    (himpl : Implements env) (hnumber : lowByte irq = number)
    (h7 : number ≠ 7) (h15 : number ≠ 15)
    (hbody : ∀ cpu : Cpu IrqState,
      (cpu.execAll env body).world = handler cpu.world)
    (cpu : Cpu IrqState) :
    (cpu.execAll env (irqCode irq body)).world =
      irqStub number handler cpu.world := by
  rw [irqCode, execAll_append, execAll_append, eoi_world himpl, hbody,
    soi_world himpl, hnumber, icSoi, picSoi_other h7 h15, irqStub_other h7 h15,
    icEoi]

theorem irq_world (himpl : Implements env) {line : Fin 16} (h7 : line ≠ 7)
    (h15 : line ≠ 15) (cpu : Cpu IrqState) :
    (cpu.execAll env (Handler.irq line).code).world = idt line cpu.world := by
  have hread : ∀ cpu : Cpu IrqState,
      (cpu.execAll env [.call .readSerial]).world = readSerial cpu.world :=
    himpl.readSerial_eq
  have htick : ∀ cpu : Cpu IrqState,
      (cpu.execAll env
        [.load .rax (fun state => state.clock.irqCount), .inc .rax,
          .store setIrqCount .rax, .call .msUpdate]).world =
        tickClock cpu.world := by
    intro cpu
    refine (himpl.msUpdate_eq _).trans ?_
    simp only [Cpu.exec, Cpu.setReg_regs_self]
    rfl
  have hid : ∀ cpu : Cpu IrqState, (cpu.execAll env []).world = id cpu.world :=
    fun _ => rfl
  fin_cases line
  case «4» =>
    exact irqCode_world himpl rfl (by decide) (by decide) hread cpu
  case «7» => exact absurd rfl h7
  case «8» =>
    exact irqCode_world himpl rfl (by decide) (by decide) htick cpu
  case «15» => exact absurd rfl h15
  all_goals exact irqCode_world himpl rfl (by decide) (by decide) hid cpu

end

/-! Exceptions: some of them push an error code, and only one handler takes it
off the stack. -/

def pushesError (vector : UInt8) : Bool :=
  vector ∈ [8, 10, 11, 12, 13, 14, 17, 21, 29, 30]

def Handler.pushesError (handler : Handler) : Bool :=
  exceptionGates.any fun gate =>
    gate.handler = handler ∧ Interrupts.pushesError gate.vector

section

variable {env : Symbol → Cpu IrqState → Cpu IrqState} {frame : Nat}

theorem code_of_not_line {handler : Handler} (hline : handler.line? = none)
    (herror : handler.pushesError = false) :
    handler = .syscallFn ∨ handler.code = [] := by
  cases handler with
  | syscallFn => exact .inl rfl
  | exc0 | exc1 | exc2 | exc3 | exc4 | exc5 | exc6 | exc7 | exc8 | exc9 | exc10
  | exc11 | exc12 | exc14 | exc16 | exc17 | exc18 | exc19 | exc20 | exc30 =>
      exact .inr rfl
  | exc13 => exact absurd herror (by decide)
  | irq0 | irq1 | irq2 | irq3 | irq4 | irq5 | irq6 | irq7 | irq8 | irq9 | irq10
  | irq11 | irq12 | irq13 | irq14 | irq15 => cases hline

theorem balanced_handler (hconforms : Conforms (frame + 1) env)
    (hspace : 8 * (frame + 6) < 2 ^ 64) {handler : Handler}
    (herror : handler.pushesError = false) :
    Balanced env frame handler.Keeps handler.code := by
  unfold Handler.Keeps
  cases hline : handler.line? with
  | some line =>
      rw [Handler.eq_irq_of_line? hline]
      exact balanced_irq hconforms (by omega) line
  | none =>
      rcases code_of_not_line hline herror with rfl | hcode
      · exact balanced_syscallFn hspace
      · rw [hcode]
        exact Balanced.nil

end

/-! An interrupt, an exception or a system call that reaches its handler through
a gate: `arrive` is what the controllers do before, and the processor clears the
flags in `mask`. -/

def runEvents (env : Symbol → Cpu IrqState → Cpu IrqState)
    (arrive : Handler → IrqState → IrqState) (mask : BitVec 64)
    (cpu : Cpu IrqState) (events : List (Event Symbol IrqState Handler)) :
    Cpu IrqState :=
  events.foldl (Cpu.event env Handler.code arrive mask) cpu

/-- The handlers that find no error code on the stack, but for those of the lines
7 and 15, which do not get to their end. -/
def Handler.Plain (handler : Handler) : Prop :=
  handler.pushesError = false ∧ handler ≠ .irq7 ∧ handler ≠ .irq15

instance : DecidablePred Handler.Plain :=
  fun _ => inferInstanceAs (Decidable (_ ∧ _))

/-- What the handlers do to the devices and the clock, one after the other. -/
def visits (arrive : Handler → IrqState → IrqState) (state : IrqState)
    (handlers : List Handler) : IrqState :=
  handlers.foldl (fun state handler => handler.effect (arrive handler state))
    state

section

variable {env : Symbol → Cpu IrqState → Cpu IrqState}
  {arrive : Handler → IrqState → IrqState} {mask : BitVec 64}

theorem execAll_world_of_none {handler : Handler}
    (hline : handler.line? = none) (cpu : Cpu IrqState) :
    (cpu.execAll env handler.code).world = cpu.world := by
  cases handler with
  | irq0 | irq1 | irq2 | irq3 | irq4 | irq5 | irq6 | irq7 | irq8 | irq9 | irq10
  | irq11 | irq12 | irq13 | irq14 | irq15 => cases hline
  | syscallFn | exc0 | exc1 | exc2 | exc3 | exc4 | exc5 | exc6 | exc7 | exc8
  | exc9 | exc10 | exc11 | exc12 | exc13 | exc14 | exc16 | exc17 | exc18 | exc19
  | exc20 | exc30 => rfl

theorem interrupt_world (himpl : Implements env) {handler : Handler}
    (hplain : handler.Plain) (cpu : Cpu IrqState) :
    (cpu.interrupt env Handler.code arrive mask handler).world =
      handler.effect (arrive handler cpu.world) := by
  have hexec : (cpu.interrupt env Handler.code arrive mask handler).world =
      ((Cpu.deliver none mask
        { cpu with world := arrive handler cpu.world }).execAll env
          handler.code).world := by
    rw [Cpu.interrupt, Cpu.handle]
    rfl
  rw [hexec, Handler.effect]
  cases hline : handler.line? with
  | none => exact execAll_world_of_none hline _
  | some line =>
      have hirq := Handler.eq_irq_of_line? hline
      have h7 : line ≠ 7 := fun heq => hplain.2.1 (hirq.trans (heq ▸ rfl))
      have h15 : line ≠ 15 := fun heq => hplain.2.2 (hirq.trans (heq ▸ rfl))
      rw [hirq]
      exact irq_world himpl h7 h15 _

/-- However interrupts, system calls and exceptions without an error code fall
between the instructions of a program that keeps to the registers their handlers
keep, the program ends as without them, and the devices and the clock are as if
the handlers had run one after the other. -/
theorem run_transparent {kept : Reg → Prop} [DecidablePred kept]
    {limit depth last : Nat} {events : List (Event Symbol IrqState Handler)}
    {cpu : Cpu IrqState} (himpl : Implements env)
    (hconforms : Conforms (limit + 7) env) (hspace : 8 * (limit + 12) < 2 ^ 64)
    (haligned : cpu.regs .rsp % 8 = 0) (hrsp : ¬kept .rsp)
    (hlines : ∀ handler ∈ Event.lines events, handler.Plain ∧
      ∀ reg, kept reg → handler.Keeps reg)
    (hfits : Fits kept limit depth (Event.program events) last) :
    Cpu.Alike kept last (runEvents env arrive mask cpu events)
        (cpu.execAll env (Event.program events)) ∧
      (runEvents env arrive mask cpu events).world =
        visits arrive cpu.world (Event.lines events) := by
  constructor
  · refine run_alike hrsp (by omega) ?_ hfits (Cpu.Alike.refl haligned)
    intro handler hmem
    exact (balanced_handler hconforms (by omega) (hlines handler hmem).1.1).mono
      (hlines handler hmem).2
  · exact @run_world _ _ _ env Handler.code arrive mask kept _ depth limit last
      events cpu (fun handler state => handler.effect (arrive handler state))
      (fun handler hmem => interrupt_world himpl (hlines handler hmem).1) hfits

end

/-! Functions that make use of everything their callers leave to them. -/

def compiled (symbol : Symbol) (cpu : Cpu IrqState) : Cpu IrqState :=
  { cpu with
    regs := fun reg =>
      if CalleeSaved reg ∨ reg = .rsp then cpu.regs reg else 0
    world :=
      match symbol with
      | .icSoi => (icSoi (lowByte (cpu.regs .rdi)) cpu.world).1
      | .icEoi => icEoi (lowByte (cpu.regs .rdi)) cpu.world
      | .readSerial => readSerial cpu.world
      | .msUpdate =>
          { cpu.world with clock := Cmos.msUpdate cpu.world.clock } }

theorem compiled_implements : Implements compiled :=
  ⟨fun _ => rfl, fun _ => rfl, fun _ => rfl, fun _ => rfl⟩

theorem compiled_rsp (symbol : Symbol) (cpu : Cpu IrqState) :
    (compiled symbol cpu).regs .rsp = cpu.regs .rsp := by
  simp [compiled]

theorem compiled_conforms (frame : Nat) : Conforms frame compiled where
  rsp_eq := compiled_rsp
  saved _ _ _ hsaved := if_pos (Or.inl hsaved)
  word_eq symbol cpu k _ := by
    rw [Cpu.word, compiled_rsp]
    rfl

theorem keeps_of_calleeSaved (handler : Handler) {reg : Reg}
    (hsaved : CalleeSaved reg) : handler.Keeps reg := by
  unfold Handler.Keeps
  split
  · exact .inl hsaved
  · trivial

def idleCpu : Cpu IrqState :=
  ⟨fun _ => 0x1008, 0x100000, 8, 0x202, 0, fun _ => 0, resetState⟩

def tickedProgram : List (Event Symbol IrqState Handler) :=
  [.run (.push .rbx), .interrupt .irq8, .run (.mov .rbx 5), .interrupt .irq4,
    .interrupt .syscallFn, .run (.inc .rbx), .interrupt .exc3, .run (.pop .rbx)]

/-- Each handler runs for the line of its own number. -/
def arriveOwn (handler : Handler) (state : IrqState) : IrqState :=
  match handler.line? with
  | some line => Interrupt.raise (.real line) state
  | none => state

theorem run_transparent_ticked :
    Cpu.Alike CalleeSaved 0
        (runEvents compiled arriveOwn 0x200 idleCpu tickedProgram)
        (idleCpu.execAll compiled (Event.program tickedProgram)) ∧
      (runEvents compiled arriveOwn 0x200 idleCpu tickedProgram).world =
        visits arriveOwn resetState [.irq8, .irq4, .syscallFn, .exc3] :=
  @run_transparent compiled arriveOwn 0x200 CalleeSaved _ 1 0 0 tickedProgram
    idleCpu
    compiled_implements (compiled_conforms 8) (by decide) (by decide)
    (by decide)
    (List.forall_mem_cons.mpr ⟨⟨by decide, fun _ => keeps_of_calleeSaved _⟩,
      List.forall_mem_cons.mpr ⟨⟨by decide, fun _ => keeps_of_calleeSaved _⟩,
        List.forall_mem_cons.mpr ⟨⟨by decide, fun _ => keeps_of_calleeSaved _⟩,
          List.forall_mem_singleton.mpr
            ⟨by decide, fun _ => keeps_of_calleeSaved _⟩⟩⟩⟩)
    (by decide)

theorem compiled_clobbers {symbol : Symbol} {cpu : Cpu IrqState} {reg : Reg}
    (hsaved : ¬CalleeSaved reg) (hrsp : reg ≠ .rsp) :
    (compiled symbol cpu).regs reg = 0 :=
  if_neg (not_or.mpr ⟨hsaved, hrsp⟩)

section

variable {arrive : Handler → IrqState → IrqState} {mask : BitVec 64}

theorem irqCode_clobbers {irq : BitVec 64} {body : Code} {cpu : Cpu IrqState}
    {reg : Reg} (hsaved : ¬CalleeSaved reg) (hrsp : reg ≠ .rsp)
    (hrdi : reg ≠ .rdi) :
    (cpu.execAll compiled (irqCode irq body)).regs reg = 0 := by
  rw [irqCode, execAll_append]
  generalize cpu.execAll compiled (soi irq ++ body) = cpu
  have hcall := @compiled_clobbers .icEoi
    ((cpu.push (cpu.regs .rdi)).setReg .rdi irq) reg hsaved hrsp
  refine (Cpu.setReg_regs_of_ne _ hrdi).trans ?_
  exact (Cpu.setReg_regs_of_ne _ hrsp).trans hcall

theorem irqCode_clobbers_rdi {irq : BitVec 64} {body : Code} {symbol : Symbol}
    {cpu : Cpu IrqState} :
    (cpu.execAll compiled (irqCode irq (body ++ [.call symbol]))).regs .rdi =
      0 := by
  have hkeep := balanced_acknowledge (compiled_conforms 1) (by decide) .icEoi irq
  rw [irqCode, execAll_append, ← List.append_assoc, execAll_append]
  refine (hkeep.reg_eq _ .rdi (.inl rfl)).trans ?_
  exact compiled_clobbers (by decide) (by decide)

theorem irq_clobbers (line : Fin 16) {reg : Reg} (hrsp : reg ≠ .rsp)
    (hkept : ¬Kept line reg) (cpu : Cpu IrqState) :
    (cpu.execAll compiled (Handler.irq line).code).regs reg = 0 := by
  rw [Kept, not_or] at hkept
  by_cases hrdi : reg = .rdi
  · have hline : line = 4 ∨ line = 8 := by
      by_contra hother
      rw [not_or, Fin.ext_iff, Fin.ext_iff] at hother
      exact hkept.2 ⟨hrdi, hother⟩
    rw [hrdi]
    rcases hline with rfl | rfl
    · exact @irqCode_clobbers_rdi 4 [] .readSerial cpu
    · exact @irqCode_clobbers_rdi 8
        [.load .rax fun state => state.clock.irqCount, .inc .rax,
          .store setIrqCount .rax] .msUpdate cpu
  · obtain ⟨irq, body, hcode⟩ : ∃ irq body, (Handler.irq line).code =
        irqCode irq body := by
      fin_cases line <;> exact ⟨_, _, rfl⟩
    rw [hcode]
    exact irqCode_clobbers hkept.1 hrsp hrdi

/-- An interrupt leaves a register as it was, whatever the functions called do
within the calling convention, if and only if the convention makes them keep it,
it is the stack pointer, or it is `rdi` and the line is not one whose handler
calls a function without saving it. -/
theorem irq_keeps_iff (line : Fin 16) (reg : Reg) :
    (∀ env, Conforms 6 env → ∀ cpu : Cpu IrqState,
      (cpu.interrupt env Handler.code arrive mask (.irq line)).regs reg =
        cpu.regs reg) ↔
      reg = .rsp ∨ Kept line reg := by
  constructor
  · intro hkeeps
    by_contra hother
    rw [not_or] at hother
    have hregs := hkeeps compiled (compiled_conforms 6)
      ⟨fun _ => 1, 0, 0, 0, 0, fun _ => 0, resetState⟩
    rw [Cpu.interrupt, Cpu.handle_regs_of_ne _ hother.1,
      irq_clobbers line hother.1 hother.2] at hregs
    exact absurd hregs (by decide : ¬(0 : BitVec 64) = 1)
  · rintro hreg env hconforms cpu
    have hcode := @balanced_irq env 5 hconforms (by decide) line
    by_cases hrsp : reg = .rsp
    · rw [hrsp]
      exact (Cpu.handle_resumes { cpu with world := arrive (.irq line) cpu.world }
        mask hcode (Nat.le_refl 5)).rsp_eq
    · exact Cpu.handle_regs { cpu with world := arrive (.irq line) cpu.world }
        mask hcode hrsp (hreg.resolve_left hrsp)

end

/-! What exceptions come to. -/

def exception (gate : Gate) (env : Symbol → Cpu IrqState → Cpu IrqState)
    (mask error : BitVec 64) (cpu : Cpu IrqState) : Cpu IrqState :=
  (cpu.deliver (if pushesError gate.vector then some error else none)
    mask).handle env gate.handler.code

/-- The exception left nothing changed but perhaps `rax`. -/
structure Passed (after cpu : Cpu IrqState) (rax : BitVec 64) : Prop where
  resumes : after.Resumes cpu
  rax_eq : after.regs .rax = rax
  reg_eq : ∀ reg, reg ≠ .rax → after.regs reg = cpu.regs reg

section

variable {env : Symbol → Cpu IrqState → Cpu IrqState} {mask error : BitVec 64}
  {cpu : Cpu IrqState}

theorem passed_nil :
    Passed ((cpu.deliver none mask).handle env []) cpu (cpu.regs .rax) := by
  have hcode : Balanced env 5 (fun _ => True) [] := Balanced.nil
  have hresumes := Cpu.handle_resumes cpu mask hcode (Nat.le_refl 5)
  refine ⟨hresumes, Cpu.handle_regs cpu mask hcode (by decide) trivial, ?_⟩
  intro reg _
  by_cases hrsp : reg = .rsp
  · rw [hrsp]
    exact hresumes.rsp_eq
  · exact Cpu.handle_regs cpu mask hcode hrsp trivial

theorem passed_pop :
    Passed ((cpu.deliver (some error) mask).handle env [.pop .rax]) cpu
      error := by
  have hresumes := @Cpu.handle_pop_resumes _ _ cpu env mask .rax (by decide)
    error
  refine ⟨hresumes, Cpu.handle_pop_reg cpu mask (by decide) error, ?_⟩
  intro reg hreg
  by_cases hrsp : reg = .rsp
  · rw [hrsp]
    exact hresumes.rsp_eq
  · exact Cpu.handle_pop_regs_of_ne cpu mask hreg hrsp error

theorem exception_code {gate : Gate} (hgate : gate ∈ exceptionGates) :
    gate.handler.code = if gate.vector = 13 then [.pop .rax] else [] := by
  have hall : exceptionGates.Forall fun gate =>
      gate.handler.code = if gate.vector = 13 then [.pop .rax] else [] := by
    simp [exceptionGates, Handler.code]
  exact List.forall_iff_forall_mem.mp hall gate hgate

theorem exception_rip {gate : Gate} (hgate : gate ∈ exceptionGates)
    (herror : pushesError gate.vector = true) (hvector : gate.vector ≠ 13) :
    (exception gate env mask error cpu).rip = error := by
  rw [exception, herror, exception_code hgate, if_neg hvector]
  exact (cpu.handle_error mask error).1

/-- An exception returns to the instruction it interrupted, whatever that was, if
and only if it pushes no error code or is the general protection fault, whose
handler leaves the code in `rax`; the others return to their error code. -/
theorem exception_passes_iff {gate : Gate} (hgate : gate ∈ exceptionGates) :
    ((∀ env mask error cpu, Passed (exception gate env mask error cpu) cpu
        (if gate.vector = 13 then error else cpu.regs .rax)) ↔
      (pushesError gate.vector = true → gate.vector = 13)) ∧
    (pushesError gate.vector = true → gate.vector ≠ 13 →
      ∀ env mask error cpu, (exception gate env mask error cpu).rip = error) := by
  refine ⟨?_, fun herror hvector env mask error cpu =>
    exception_rip hgate herror hvector⟩
  have hcode := exception_code hgate
  by_cases hvector : gate.vector = 13
  · rw [if_pos hvector] at hcode
    have herror : pushesError gate.vector = true := hvector ▸ rfl
    refine iff_of_true ?_ (fun _ => hvector)
    intro env mask error cpu
    rw [exception, herror, hcode, if_pos hvector]
    exact passed_pop
  · rw [if_neg hvector] at hcode
    cases herror : pushesError gate.vector with
    | false =>
        refine iff_of_true ?_ (fun hpushes => by cases hpushes)
        intro env mask error cpu
        rw [exception, herror, hcode, if_neg hvector]
        exact passed_nil
    | true =>
        refine iff_of_false ?_ (fun hpushes => hvector (hpushes rfl))
        intro hpasses
        -- the error code is taken for the address to return to
        let cpu : Cpu IrqState :=
          ⟨fun _ => 0, 0, 0, 0, 0, fun _ => 0, resetState⟩
        have hrip := (hpasses compiled 0 1 cpu).resumes.rip_eq
        exact absurd ((exception_rip hgate herror hvector).symm.trans hrip)
          (by decide : ¬(1 : BitVec 64) = 0)

end

/-- A page fault does not return, but to its error code. -/
theorem exception_passes_fault :
    (¬∀ env mask error cpu,
      Passed (exception ⟨14, .exc14, intGateFault⟩ env mask error cpu) cpu
        (if (14 : UInt8) = 13 then error else cpu.regs .rax)) ∧
    ∀ env mask cpu,
      (exception ⟨14, .exc14, intGateFault⟩ env mask 2 cpu).rip = 2 := by
  have hgate : (⟨14, .exc14, intGateFault⟩ : Gate) ∈ exceptionGates := by
    simp [exceptionGates]
  obtain ⟨hiff, hreturns⟩ := exception_passes_iff hgate
  refine ⟨fun hpasses => ?_, fun env mask cpu =>
    hreturns (by decide) (by decide) env mask 2 cpu⟩
  exact absurd (hiff.mp hpasses (by decide)) (by decide)

end Synos.Interrupts
