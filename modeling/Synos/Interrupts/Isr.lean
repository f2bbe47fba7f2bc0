import Synos.Data.Cpu
import Synos.Interrupts.Pic
import Mathlib.Data.Fintype.Basic

namespace Synos.Interrupts

open Synos.Data

/-! The handlers as they are assembled. -/

/-- The functions of the kernel that the handlers call. -/
inductive Symbol
  | icSoi
  | icEoi
  | readSerial
  | msUpdate
  deriving DecidableEq, Repr

abbrev Code := List (Instr Symbol IrqState)

def soi (irq : BitVec 64) : Code :=
  [.push .rdi, .mov .rdi irq, .call .icSoi, .pop .rdi]

def eoi (irq : BitVec 64) : Code :=
  [.push .rdi, .mov .rdi irq, .call .icEoi, .pop .rdi]

def irqCode (irq : BitVec 64) (body : Code) : Code :=
  soi irq ++ body ++ eoi irq

def setIrqCount (count : BitVec 64) (state : IrqState) : IrqState :=
  { state with clock := { state.clock with irqCount := count } }

inductive Handler
  | exc0 | exc1 | exc2 | exc3 | exc4 | exc5 | exc6 | exc7 | exc8 | exc9 | exc10
  | exc11 | exc12 | exc13 | exc14 | exc16 | exc17 | exc18 | exc19 | exc20
  | exc30
  | irq0 | irq1 | irq2 | irq3 | irq4 | irq5 | irq6 | irq7 | irq8 | irq9 | irq10
  | irq11 | irq12 | irq13 | irq14 | irq15
  | syscallFn
  deriving DecidableEq, Repr

namespace Handler

def code : Handler → Code
  | exc0 | exc1 | exc2 | exc3 | exc4 | exc5 | exc6 | exc7 | exc8 | exc9 | exc10
  | exc11 | exc12 | exc14 | exc16 | exc17 | exc18 | exc19 | exc20 | exc30 => []
  | exc13 => [.pop .rax]
  | irq0 => irqCode 0 []
  | irq1 => irqCode 1 []
  | irq2 => irqCode 2 []
  | irq3 => irqCode 3 []
  | irq4 => irqCode 4 [.call .readSerial]
  | irq5 => irqCode 5 []
  | irq6 => irqCode 6 []
  | irq7 => irqCode 7 []
  | irq8 =>
      irqCode 8
        [.load .rax (fun state => state.clock.irqCount), .inc .rax,
          .store setIrqCount .rax, .call .msUpdate]
  | irq9 => irqCode 9 []
  | irq10 => irqCode 10 []
  | irq11 => irqCode 11 []
  | irq12 => irqCode 12 []
  | irq13 => irqCode 13 []
  | irq14 => irqCode 14 []
  | irq15 => irqCode 15 []
  | syscallFn =>
      [.push .rbx, .push .rbp, .push .r12, .push .r13, .push .r14, .push .r15,
        .pop .r15, .pop .r14, .pop .r13, .pop .r12, .pop .rbp, .pop .rbx]

def irq : Fin 16 → Handler :=
  ![irq0, irq1, irq2, irq3, irq4, irq5, irq6, irq7, irq8, irq9, irq10, irq11,
    irq12, irq13, irq14, irq15]

def line? (handler : Handler) : Option (Fin 16) :=
  (List.finRange 16).find? fun line => handler = irq line

theorem line?_irq : ∀ line : Fin 16, (irq line).line? = some line := by
  decide

theorem eq_irq_of_line? {handler : Handler} {line : Fin 16}
    (hline : handler.line? = some line) : handler = irq line := by
  have hfound := List.find?_some hline
  exact of_decide_eq_true hfound

/-- The handlers of the exceptions and of the system calls touch neither the
devices nor the clock. -/
def effect (handler : Handler) : IrqState → IrqState :=
  match handler.line? with
  | some line => idt line
  | none => id

end Handler

/-! What a handler keeps. -/

/-- Only `SOI` and `EOI` save `rdi`: what is called between them may change
it. -/
def Kept (irq : Fin 16) (reg : Reg) : Prop :=
  CalleeSaved reg ∨ reg = .rdi ∧ irq.val ≠ 4 ∧ irq.val ≠ 8

instance (irq : Fin 16) : DecidablePred (Kept irq) :=
  fun _ => inferInstanceAs (Decidable (_ ∨ _))

def Handler.Keeps (handler : Handler) (reg : Reg) : Prop :=
  match handler.line? with
  | some line => Kept line reg
  | none => True

instance (handler : Handler) : DecidablePred handler.Keeps := fun _ => by
  unfold Handler.Keeps
  split <;> infer_instance

section

variable {env : Symbol → Cpu IrqState → Cpu IrqState} {frame : Nat}

theorem ne_of_calleeSaved {reg other : Reg} (hreg : CalleeSaved reg)
    (hother : ¬CalleeSaved other) : reg ≠ other := by
  rintro rfl
  exact hother hreg

theorem balanced_acknowledge (hconforms : Conforms (frame + 1) env)
    (hspace : 8 * (frame + 1) < 2 ^ 64) (symbol : Symbol) (irq : BitVec 64) :
    Balanced env frame (fun reg => reg = .rdi ∨ CalleeSaved reg)
      [.push .rdi, .mov .rdi irq, .call symbol, .pop .rdi] := by
  have hmov : Balanced env (frame + 1) (· ≠ Reg.rdi) [.mov .rdi irq] :=
    @Balanced.writes _ _ _ _ .rdi _ (fun _ => irq) (by decide) fun _ => rfl
  have hcall := Balanced.call hconforms symbol
  exact Balanced.bracket (by decide) hspace
    ((hmov.mono fun reg hreg => ne_of_calleeSaved hreg (by decide)).append
      hcall)

theorem balanced_irqCode {kept : Reg → Prop} {body : Code} {irq : BitVec 64}
    (hconforms : Conforms (frame + 1) env) (hspace : 8 * (frame + 1) < 2 ^ 64)
    (hkept : ∀ reg, kept reg → reg = .rdi ∨ CalleeSaved reg)
    (hbody : Balanced env frame kept body) :
    Balanced env frame kept (irqCode irq body) :=
  (((balanced_acknowledge hconforms hspace .icSoi irq).mono hkept).append
    hbody).append ((balanced_acknowledge hconforms hspace .icEoi irq).mono hkept)

theorem balanced_irq_plain (hconforms : Conforms (frame + 1) env)
    (hspace : 8 * (frame + 1) < 2 ^ 64) {irq : Fin 16} {number : BitVec 64} :
    Balanced env frame (Kept irq) (irqCode number []) :=
  balanced_irqCode hconforms hspace
    (fun _ hkept => hkept.elim .inr fun hrdi => .inl hrdi.1)
    (Balanced.nil.mono fun _ _ => trivial)

theorem balanced_readSerial (hconforms : Conforms (frame + 1) env) :
    Balanced env frame CalleeSaved [.call .readSerial] :=
  Balanced.call (hconforms.mono (Nat.le_succ frame)) _

theorem balanced_tick (hconforms : Conforms (frame + 1) env) :
    Balanced env frame CalleeSaved
      [.load .rax (fun state => state.clock.irqCount), .inc .rax,
        .store setIrqCount .rax, .call .msUpdate] := by
  have hrax : ∀ reg, CalleeSaved reg → reg ≠ .rax :=
    fun reg hreg => ne_of_calleeSaved hreg (by decide)
  have hload : Balanced env frame (· ≠ Reg.rax)
      [.load .rax fun state => state.clock.irqCount] :=
    @Balanced.writes _ _ _ _ .rax _ (fun cpu => cpu.world.clock.irqCount)
      (by decide) fun _ => rfl
  have hinc : Balanced env frame (· ≠ Reg.rax) [.inc .rax] :=
    @Balanced.writes _ _ _ _ .rax _ (fun cpu => cpu.regs .rax + 1)
      (by decide) fun _ => rfl
  have hstore := @Balanced.store _ _ env frame setIrqCount .rax
  have hcall : Balanced env frame CalleeSaved [.call .msUpdate] :=
    Balanced.call (hconforms.mono (Nat.le_succ frame)) _
  exact (hload.mono hrax).append ((hinc.mono hrax).append
    ((hstore.mono fun _ _ => trivial).append hcall))

theorem balanced_irq (hconforms : Conforms (frame + 1) env)
    (hspace : 8 * (frame + 1) < 2 ^ 64) (irq : Fin 16) :
    Balanced env frame (Kept irq) (Handler.irq irq).code := by
  have hsaved : ∀ reg, CalleeSaved reg → reg = .rdi ∨ CalleeSaved reg :=
    fun _ => .inr
  fin_cases irq
  case «4» =>
    exact (balanced_irqCode hconforms hspace hsaved
      (balanced_readSerial hconforms)).mono
        fun _ hkept => hkept.resolve_right fun hrdi => hrdi.2.1 rfl
  case «8» =>
    exact (balanced_irqCode hconforms hspace hsaved
      (balanced_tick hconforms)).mono
        fun _ hkept => hkept.resolve_right fun hrdi => hrdi.2.2 rfl
  all_goals exact balanced_irq_plain hconforms hspace

theorem balanced_bracket_all {reg : Reg} {body : Code} (hreg : reg ≠ .rsp)
    (hspace : 8 * (frame + 1) < 2 ^ 64)
    (hbody : Balanced env (frame + 1) (fun _ => True) body) :
    Balanced env frame (fun _ => True) (.push reg :: body ++ [.pop reg]) :=
  (Balanced.bracket hreg hspace hbody).mono fun _ _ => .inr trivial

theorem balanced_syscallFn (hspace : 8 * (frame + 6) < 2 ^ 64) :
    Balanced env frame (fun _ => True) Handler.syscallFn.code := by
  have hnil : Balanced env (frame + 6) (fun _ => True) ([] : Code) :=
    Balanced.nil
  have hr15 : Balanced env (frame + 5) (fun _ => True)
      [.push .r15, .pop .r15] :=
    balanced_bracket_all (by decide) (by omega) hnil
  have hr14 : Balanced env (frame + 4) (fun _ => True)
      [.push .r14, .push .r15, .pop .r15, .pop .r14] :=
    balanced_bracket_all (by decide) (by omega) hr15
  have hr13 : Balanced env (frame + 3) (fun _ => True)
      [.push .r13, .push .r14, .push .r15, .pop .r15, .pop .r14, .pop .r13] :=
    balanced_bracket_all (by decide) (by omega) hr14
  have hr12 : Balanced env (frame + 2) (fun _ => True)
      [.push .r12, .push .r13, .push .r14, .push .r15, .pop .r15, .pop .r14,
        .pop .r13, .pop .r12] :=
    balanced_bracket_all (by decide) (by omega) hr13
  have hrbp : Balanced env (frame + 1) (fun _ => True)
      [.push .rbp, .push .r12, .push .r13, .push .r14, .push .r15, .pop .r15,
        .pop .r14, .pop .r13, .pop .r12, .pop .rbp] :=
    balanced_bracket_all (by decide) (by omega) hr12
  exact balanced_bracket_all (by decide) (by omega) hrbp

end

end Synos.Interrupts
