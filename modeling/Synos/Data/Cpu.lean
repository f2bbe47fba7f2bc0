import Synos.Data.Word
import Mathlib.Logic.Function.Basic

namespace Synos.Data

/-! A processor with a stack: straight-line code that calls compiled functions,
and the frames that an interrupt pushes and `iretq` pops. -/

universe u v

inductive Reg
  | rax | rcx | rdx | rbx | rsp | rbp | rsi | rdi
  | r8 | r9 | r10 | r11 | r12 | r13 | r14 | r15
  deriving DecidableEq, Repr

/-- `memory` is the memory of the stack, a word at each address that is pushed
to; `world` is everything else. -/
structure Cpu (World : Type u) where
  regs : Reg → BitVec 64
  rip : BitVec 64
  cs : BitVec 16
  rflags : BitVec 64
  ss : BitVec 16
  memory : BitVec 64 → BitVec 64
  world : World

inductive Instr (Symbol : Type v) (World : Type u)
  | push (reg : Reg)
  | pop (reg : Reg)
  | mov (reg : Reg) (value : BitVec 64)
  | load (reg : Reg) (read : World → BitVec 64)
  | inc (reg : Reg)
  | store (write : BitVec 64 → World → World) (reg : Reg)
  | call (symbol : Symbol)

namespace Cpu

variable {World : Type u} {Symbol : Type v}

/-- The word `k` places above the top of the stack. -/
def word (cpu : Cpu World) (k : Nat) : BitVec 64 :=
  cpu.memory (cpu.regs .rsp + BitVec.ofNat 64 (8 * k))

def setReg (cpu : Cpu World) (reg : Reg) (value : BitVec 64) : Cpu World :=
  { cpu with regs := Function.update cpu.regs reg value }

def push (cpu : Cpu World) (value : BitVec 64) : Cpu World :=
  { cpu.setReg .rsp (cpu.regs .rsp - 8) with
    memory := Function.update cpu.memory (cpu.regs .rsp - 8) value }

def drop (cpu : Cpu World) : Cpu World :=
  cpu.setReg .rsp (cpu.regs .rsp + 8)

/-- `env` is what the functions called do up to their return. -/
def exec (env : Symbol → Cpu World → Cpu World) (cpu : Cpu World) :
    Instr Symbol World → Cpu World
  | .push reg => cpu.push (cpu.regs reg)
  | .pop reg => cpu.drop.setReg reg (cpu.word 0)
  | .mov reg value => cpu.setReg reg value
  | .load reg read => cpu.setReg reg (read cpu.world)
  | .inc reg => cpu.setReg reg (cpu.regs reg + 1)
  | .store write reg => { cpu with world := write (cpu.regs reg) cpu.world }
  | .call symbol => env symbol cpu

def execAll (env : Symbol → Cpu World → Cpu World)
    (code : List (Instr Symbol World)) (cpu : Cpu World) : Cpu World :=
  code.foldl (exec env) cpu

def iretq (cpu : Cpu World) : Cpu World :=
  { cpu.setReg .rsp (cpu.word 3) with
    rip := cpu.word 0
    cs := (cpu.word 1).setWidth 16
    rflags := cpu.word 2
    ss := (cpu.word 4).setWidth 16 }

def align (cpu : Cpu World) : Cpu World :=
  cpu.setReg .rsp (cpu.regs .rsp >>> 4 <<< 4)

/-- The processor aligns the stack and pushes where it was interrupted. -/
def interrupted (cpu : Cpu World) : Cpu World :=
  ((((cpu.align.push (cpu.ss.setWidth 64)).push (cpu.regs .rsp)).push
    cpu.rflags).push (cpu.cs.setWidth 64)).push cpu.rip

/-- Some exceptions also push an error code.  The flags in `mask` are cleared. -/
def deliver (error : Option (BitVec 64)) (mask : BitVec 64)
    (cpu : Cpu World) : Cpu World :=
  let framed :=
    match error with
    | none => cpu.interrupted
    | some code => cpu.interrupted.push code
  { framed with rflags := cpu.rflags &&& ~~~mask }

/-- A handler is the code in front of its `iretq`. -/
def handle (env : Symbol → Cpu World → Cpu World)
    (code : List (Instr Symbol World)) (cpu : Cpu World) : Cpu World :=
  (execAll env code cpu).iretq

/-- `after` goes on where `cpu` stood. -/
structure Resumes (after cpu : Cpu World) : Prop where
  rip_eq : after.rip = cpu.rip
  cs_eq : after.cs = cpu.cs
  rflags_eq : after.rflags = cpu.rflags
  rsp_eq : after.regs .rsp = cpu.regs .rsp
  ss_eq : after.ss = cpu.ss

variable (cpu : Cpu World) {reg other : Reg} {value : BitVec 64} {k : Nat}

@[simp] theorem setReg_regs_self :
    (cpu.setReg reg value).regs reg = value := by
  simp [setReg]

theorem setReg_regs_of_ne (hne : other ≠ reg) :
    (cpu.setReg reg value).regs other = cpu.regs other := by
  simp [setReg, hne]

theorem setReg_word (hreg : reg ≠ .rsp) :
    (cpu.setReg reg value).word k = cpu.word k := by
  rw [word, setReg_regs_of_ne cpu hreg.symm]
  rfl

@[simp] theorem push_rsp : (cpu.push value).regs .rsp = cpu.regs .rsp - 8 := by
  simp [push]

theorem push_regs_of_ne (hreg : reg ≠ .rsp) :
    (cpu.push value).regs reg = cpu.regs reg :=
  setReg_regs_of_ne cpu hreg

@[simp] theorem push_word_zero : (cpu.push value).word 0 = value := by
  simp [word, push]

theorem push_word_succ (hspace : 8 * (k + 1) < 2 ^ 64) :
    (cpu.push value).word (k + 1) = cpu.word k := by
  have haddress : cpu.regs .rsp - 8 + BitVec.ofNat 64 (8 * (k + 1)) =
      cpu.regs .rsp + BitVec.ofNat 64 (8 * k) := by
    bv_omega
  have hne : cpu.regs .rsp + BitVec.ofNat 64 (8 * k) ≠ cpu.regs .rsp - 8 := by
    bv_omega
  rw [word, push_rsp, haddress]
  exact Function.update_of_ne hne _ _

@[simp] theorem drop_rsp : cpu.drop.regs .rsp = cpu.regs .rsp + 8 := by
  simp [drop]

theorem drop_word : cpu.drop.word k = cpu.word (k + 1) := by
  have haddress : cpu.regs .rsp + 8 + BitVec.ofNat 64 (8 * k) =
      cpu.regs .rsp + BitVec.ofNat 64 (8 * (k + 1)) := by
    bv_omega
  rw [word, drop_rsp, haddress]
  rfl

end Cpu

/-! Code that leaves the stack as it found it. -/

/-- The registers that a compiled function restores, besides the stack
pointer. -/
def CalleeSaved (reg : Reg) : Prop :=
  reg ∈ [.rbx, .rbp, .r12, .r13, .r14, .r15]

instance : DecidablePred CalleeSaved :=
  fun reg => inferInstanceAs (Decidable (reg ∈ _))

section

variable {World : Type u} {Symbol : Type v}

/-- What a compiled function promises to a caller with `frame` words on the
stack. -/
structure Conforms (frame : Nat) (env : Symbol → Cpu World → Cpu World) :
    Prop where
  rsp_eq : ∀ symbol (cpu : Cpu World),
    (env symbol cpu).regs .rsp = cpu.regs .rsp
  saved : ∀ symbol (cpu : Cpu World) reg, CalleeSaved reg →
    (env symbol cpu).regs reg = cpu.regs reg
  word_eq : ∀ symbol (cpu : Cpu World) k, k < frame →
    (env symbol cpu).word k = cpu.word k

/-- The code keeps the stack pointer, the `frame` words from there on and the
registers `kept`. -/
structure Balanced (env : Symbol → Cpu World → Cpu World) (frame : Nat)
    (kept : Reg → Prop) (code : List (Instr Symbol World)) : Prop where
  rsp_eq : ∀ cpu : Cpu World,
    (cpu.execAll env code).regs .rsp = cpu.regs .rsp
  reg_eq : ∀ (cpu : Cpu World) reg, kept reg →
    (cpu.execAll env code).regs reg = cpu.regs reg
  word_eq : ∀ (cpu : Cpu World) k, k < frame →
    (cpu.execAll env code).word k = cpu.word k

variable {env : Symbol → Cpu World → Cpu World} {frame : Nat}
  {kept also : Reg → Prop} {code more : List (Instr Symbol World)}

theorem execAll_append (cpu : Cpu World) :
    cpu.execAll env (code ++ more) = (cpu.execAll env code).execAll env more :=
  List.foldl_append

theorem Conforms.mono {less : Nat} (hconforms : Conforms frame env)
    (hless : less ≤ frame) : Conforms less env where
  rsp_eq := hconforms.rsp_eq
  saved := hconforms.saved
  word_eq symbol cpu k hk := hconforms.word_eq symbol cpu k (Nat.lt_of_lt_of_le hk hless)

theorem Balanced.nil : Balanced env frame (fun _ => True) [] where
  rsp_eq _ := rfl
  reg_eq _ _ _ := rfl
  word_eq _ _ _ := rfl

theorem Balanced.mono (hcode : Balanced env frame kept code)
    (himp : ∀ reg, also reg → kept reg) : Balanced env frame also code where
  rsp_eq := hcode.rsp_eq
  reg_eq cpu reg hreg := hcode.reg_eq cpu reg (himp reg hreg)
  word_eq := hcode.word_eq

theorem Balanced.shrink {less : Nat} (hcode : Balanced env frame kept code)
    (hless : less ≤ frame) : Balanced env less kept code where
  rsp_eq := hcode.rsp_eq
  reg_eq := hcode.reg_eq
  word_eq cpu k hk := hcode.word_eq cpu k (Nat.lt_of_lt_of_le hk hless)

theorem Balanced.append (hcode : Balanced env frame kept code)
    (hmore : Balanced env frame kept more) :
    Balanced env frame kept (code ++ more) where
  rsp_eq cpu := by rw [execAll_append, hmore.rsp_eq, hcode.rsp_eq]
  reg_eq cpu reg hreg := by
    rw [execAll_append, hmore.reg_eq _ reg hreg, hcode.reg_eq _ reg hreg]
  word_eq cpu k hk := by
    rw [execAll_append, hmore.word_eq _ k hk, hcode.word_eq _ k hk]

theorem Balanced.call (hconforms : Conforms frame env) (symbol : Symbol) :
    Balanced env frame CalleeSaved [.call symbol] where
  rsp_eq := hconforms.rsp_eq symbol
  reg_eq := hconforms.saved symbol
  word_eq := hconforms.word_eq symbol

theorem Balanced.writes {reg : Reg} {instr : Instr Symbol World}
    {value : Cpu World → BitVec 64} (hreg : reg ≠ .rsp)
    (hexec : ∀ cpu : Cpu World,
      cpu.exec env instr = cpu.setReg reg (value cpu)) :
    Balanced env frame (· ≠ reg) [instr] where
  rsp_eq cpu := by
    change (cpu.exec env instr).regs .rsp = cpu.regs .rsp
    rw [hexec, cpu.setReg_regs_of_ne hreg.symm]
  reg_eq cpu other hother := by
    change (cpu.exec env instr).regs other = cpu.regs other
    rw [hexec, cpu.setReg_regs_of_ne hother]
  word_eq cpu k _ := by
    change (cpu.exec env instr).word k = cpu.word k
    rw [hexec, cpu.setReg_word hreg]

theorem Balanced.store (write : BitVec 64 → World → World) (reg : Reg) :
    Balanced env frame (fun _ => True) [.store write reg] where
  rsp_eq _ := rfl
  reg_eq _ _ _ := rfl
  word_eq _ _ _ := rfl

/-- A register pushed in front of balanced code and popped behind it is kept
besides what the code keeps. -/
theorem Balanced.bracket {reg : Reg} (hreg : reg ≠ .rsp)
    (hspace : 8 * (frame + 1) < 2 ^ 64)
    (hcode : Balanced env (frame + 1) kept code) :
    Balanced env frame (fun other => other = reg ∨ kept other)
      (.push reg :: code ++ [.pop reg]) := by
  have hexec : ∀ cpu : Cpu World,
      cpu.execAll env (.push reg :: code ++ [.pop reg]) =
        let after := (cpu.push (cpu.regs reg)).execAll env code
        after.drop.setReg reg (after.word 0) := fun cpu => execAll_append cpu
  constructor
  · intro cpu
    rw [hexec, Cpu.setReg_regs_of_ne _ hreg.symm, Cpu.drop_rsp, hcode.rsp_eq,
      Cpu.push_rsp, BitVec.sub_add_cancel]
  · intro cpu other hother
    rw [hexec]
    by_cases hsame : other = reg
    · rw [hsame, Cpu.setReg_regs_self, hcode.word_eq _ 0 (Nat.succ_pos frame),
        Cpu.push_word_zero]
    · have hkept := hother.resolve_left hsame
      rw [Cpu.setReg_regs_of_ne _ hsame]
      by_cases hrsp : other = .rsp
      · rw [hrsp, Cpu.drop_rsp, hcode.rsp_eq, Cpu.push_rsp,
          BitVec.sub_add_cancel]
      · rw [Cpu.drop, Cpu.setReg_regs_of_ne _ hrsp, hcode.reg_eq _ _ hkept,
          Cpu.push_regs_of_ne _ hrsp]
  · intro cpu k hk
    rw [hexec, Cpu.setReg_word _ hreg, Cpu.drop_word,
      hcode.word_eq _ (k + 1) (Nat.succ_lt_succ hk),
      Cpu.push_word_succ cpu (by omega)]

end

/-! The frame of an interrupt. -/

namespace Cpu

variable {World : Type u} {Symbol : Type v} (cpu : Cpu World) {k : Nat}

theorem interrupted_rsp :
    cpu.interrupted.regs .rsp = cpu.align.regs .rsp - 40 := by
  simp only [interrupted, push_rsp]
  bv_omega

theorem interrupted_regs {reg : Reg} (hreg : reg ≠ .rsp) :
    cpu.interrupted.regs reg = cpu.regs reg := by
  simp only [interrupted, push_regs_of_ne _ hreg, align,
    setReg_regs_of_ne _ hreg]

theorem interrupted_word_rip : cpu.interrupted.word 0 = cpu.rip :=
  push_word_zero _

theorem interrupted_word_cs :
    cpu.interrupted.word 1 = cpu.cs.setWidth 64 :=
  (push_word_succ _ (by decide)).trans (push_word_zero _)

theorem interrupted_word_rflags : cpu.interrupted.word 2 = cpu.rflags := by
  refine (push_word_succ _ (by decide)).trans ?_
  exact (push_word_succ _ (by decide)).trans (push_word_zero _)

theorem interrupted_word_rsp :
    cpu.interrupted.word 3 = cpu.regs .rsp := by
  refine (push_word_succ _ (by decide)).trans ?_
  refine (push_word_succ _ (by decide)).trans ?_
  exact (push_word_succ _ (by decide)).trans (push_word_zero _)

theorem interrupted_word_ss :
    cpu.interrupted.word 4 = cpu.ss.setWidth 64 := by
  refine (push_word_succ _ (by decide)).trans ?_
  refine (push_word_succ _ (by decide)).trans ?_
  refine (push_word_succ _ (by decide)).trans ?_
  exact (push_word_succ _ (by decide)).trans (push_word_zero _)

theorem interrupted_word_add (hspace : 8 * (k + 5) < 2 ^ 64) :
    cpu.interrupted.word (k + 5) = cpu.align.word k := by
  rw [interrupted, push_word_succ _ (by omega), push_word_succ _ (by omega),
    push_word_succ _ (by omega), push_word_succ _ (by omega),
    push_word_succ _ (by omega)]

theorem align_rsp (haligned : cpu.regs .rsp % 8 = 0) :
    ∃ gap ≤ 1, cpu.regs .rsp =
      cpu.align.regs .rsp + BitVec.ofNat 64 (8 * gap) := by
  rw [align, setReg_regs_self]
  have hmod : (cpu.regs .rsp).toNat % 8 = 0 := by
    have := congrArg BitVec.toNat haligned
    simpa using this
  have hlt := (cpu.regs .rsp).isLt
  by_cases hsixteen : (cpu.regs .rsp).toNat % 16 = 0
  · refine ⟨0, by decide, ?_⟩
    apply BitVec.eq_of_toNat_eq
    simp only [BitVec.toNat_add, BitVec.toNat_shiftLeft,
      BitVec.toNat_ushiftRight, Nat.shiftLeft_eq, Nat.shiftRight_eq_div_pow,
      BitVec.toNat_ofNat]
    omega
  · refine ⟨1, by decide, ?_⟩
    apply BitVec.eq_of_toNat_eq
    simp only [BitVec.toNat_add, BitVec.toNat_shiftLeft,
      BitVec.toNat_ushiftRight, Nat.shiftLeft_eq, Nat.shiftRight_eq_div_pow,
      BitVec.toNat_ofNat]
    omega

theorem setWidth_selector (selector : BitVec 16) :
    (selector.setWidth 64).setWidth 16 = selector := by
  simp

variable {env : Symbol → Cpu World → Cpu World} {frame : Nat}
  {kept : Reg → Prop} {code : List (Instr Symbol World)} (mask : BitVec 64)

theorem deliver_word :
    (cpu.deliver none mask).word k = cpu.interrupted.word k := by
  simp only [deliver, word]

theorem deliver_word_error (error : BitVec 64) :
    (cpu.deliver (some error) mask).word k =
      (cpu.interrupted.push error).word k := by
  simp only [deliver, word]

theorem handle_rip : (cpu.handle env code).rip =
    (cpu.execAll env code).word 0 := by
  simp only [handle, iretq]

theorem handle_cs : (cpu.handle env code).cs =
    ((cpu.execAll env code).word 1).setWidth 16 := by
  simp only [handle, iretq]

theorem handle_rflags : (cpu.handle env code).rflags =
    (cpu.execAll env code).word 2 := by
  simp only [handle, iretq]

theorem handle_rsp : (cpu.handle env code).regs .rsp =
    (cpu.execAll env code).word 3 := by
  simp only [handle, iretq, setReg_regs_self]

theorem handle_ss : (cpu.handle env code).ss =
    ((cpu.execAll env code).word 4).setWidth 16 := by
  simp only [handle, iretq]

theorem handle_memory : (cpu.handle env code).memory =
    (cpu.execAll env code).memory := by
  simp only [handle, iretq, setReg]

theorem handle_regs_of_ne {reg : Reg} (hreg : reg ≠ .rsp) :
    (cpu.handle env code).regs reg = (cpu.execAll env code).regs reg := by
  simp only [handle, iretq, setReg_regs_of_ne _ hreg]

/-- Balanced code in front of `iretq` returns to where the processor was
interrupted. -/
theorem handle_resumes (hcode : Balanced env frame kept code)
    (hframe : 5 ≤ frame) :
    ((cpu.deliver none mask).handle env code).Resumes cpu where
  rip_eq := by
    rw [handle_rip, hcode.word_eq _ 0 (by omega), deliver_word,
      interrupted_word_rip]
  cs_eq := by
    rw [handle_cs, hcode.word_eq _ 1 (by omega), deliver_word,
      interrupted_word_cs, setWidth_selector]
  rflags_eq := by
    rw [handle_rflags, hcode.word_eq _ 2 (by omega), deliver_word,
      interrupted_word_rflags]
  rsp_eq := by
    rw [handle_rsp, hcode.word_eq _ 3 (by omega), deliver_word,
      interrupted_word_rsp]
  ss_eq := by
    rw [handle_ss, hcode.word_eq _ 4 (by omega), deliver_word,
      interrupted_word_ss, setWidth_selector]

theorem deliver_regs {reg : Reg} (hreg : reg ≠ .rsp) :
    (cpu.deliver none mask).regs reg = cpu.regs reg := by
  simp only [deliver, cpu.interrupted_regs hreg]

theorem deliver_rsp :
    (cpu.deliver none mask).regs .rsp = cpu.align.regs .rsp - 40 := by
  simp only [deliver, cpu.interrupted_rsp]

theorem handle_regs (hcode : Balanced env frame kept code) {reg : Reg}
    (hreg : reg ≠ .rsp) (hkept : kept reg) :
    ((cpu.deliver none mask).handle env code).regs reg = cpu.regs reg := by
  rw [handle_regs_of_ne _ hreg, hcode.reg_eq _ reg hkept,
    deliver_regs cpu mask hreg]

theorem handle_word (hcode : Balanced env (frame + 6) kept code)
    (hspace : 8 * (frame + 6) < 2 ^ 64) (haligned : cpu.regs .rsp % 8 = 0)
    (hk : k < frame) :
    ((cpu.deliver none mask).handle env code).word k = cpu.word k := by
  obtain ⟨gap, hgap, hrsp⟩ := cpu.align_rsp haligned
  have hreturn := (handle_resumes cpu mask hcode (by omega)).rsp_eq
  have hafter := hcode.rsp_eq (cpu.deliver none mask)
  rw [deliver_rsp] at hafter
  have hword := hcode.word_eq (cpu.deliver none mask) (k + gap + 5) (by omega)
  rw [deliver_word, interrupted_word_add _ (by omega)] at hword
  have houter : cpu.align.regs .rsp - 40 +
      BitVec.ofNat 64 (8 * (k + gap + 5)) =
        cpu.regs .rsp + BitVec.ofNat 64 (8 * k) := by
    rw [hrsp]
    bv_omega
  have hinner : cpu.align.word (k + gap) = cpu.word k := by
    rw [word, word, hrsp, BitVec.add_assoc, ← BitVec.ofNat_add,
      Nat.mul_add, Nat.add_comm (8 * k)]
    rfl
  rw [← hinner, ← hword, word, word, hreturn, hafter, houter, handle_memory]

/-- With an error code on top, `iretq` takes every word one place too early. -/
theorem handle_error (error : BitVec 64) :
    let after := (cpu.deliver (some error) mask).handle env []
    after.rip = error ∧ after.cs = cpu.rip.setWidth 16 ∧
      after.rflags = cpu.cs.setWidth 64 ∧ after.regs .rsp = cpu.rflags ∧
      after.ss = (cpu.regs .rsp).setWidth 16 := by
  have hnone : ∀ start : Cpu World, start.execAll env [] = start :=
    fun _ => rfl
  have hsucc : ∀ j < 4, (cpu.interrupted.push error).word (j + 1) =
      cpu.interrupted.word j := by
    intro j hj
    exact push_word_succ _ (by omega)
  refine ⟨?_, ?_, ?_, ?_, ?_⟩
  · rw [handle_rip, hnone, deliver_word_error, push_word_zero]
  · rw [handle_cs, hnone, deliver_word_error, hsucc 0 (by decide),
      interrupted_word_rip]
  · rw [handle_rflags, hnone, deliver_word_error, hsucc 1 (by decide),
      interrupted_word_cs]
  · rw [handle_rsp, hnone, deliver_word_error, hsucc 2 (by decide),
      interrupted_word_rflags]
  · rw [handle_ss, hnone, deliver_word_error, hsucc 3 (by decide),
      interrupted_word_rsp]

theorem pop_error_word {reg : Reg} (hreg : reg ≠ .rsp) (error : BitVec 64)
    (hk : k < 5) :
    ((cpu.deliver (some error) mask).execAll env [.pop reg]).word k =
      cpu.interrupted.word k := by
  have hexec : (cpu.deliver (some error) mask).execAll env [.pop reg] =
      (cpu.deliver (some error) mask).drop.setReg reg
        ((cpu.deliver (some error) mask).word 0) := rfl
  rw [hexec, setReg_word _ hreg, drop_word, deliver_word_error,
    push_word_succ _ (by omega)]

/-- A handler that takes the error code off the stack returns to where the
processor was interrupted. -/
theorem handle_pop_resumes {reg : Reg} (hreg : reg ≠ .rsp)
    (error : BitVec 64) :
    ((cpu.deliver (some error) mask).handle env [.pop reg]).Resumes cpu where
  rip_eq := by
    rw [handle_rip, pop_error_word _ _ hreg _ (by decide), interrupted_word_rip]
  cs_eq := by
    rw [handle_cs, pop_error_word _ _ hreg _ (by decide), interrupted_word_cs,
      setWidth_selector]
  rflags_eq := by
    rw [handle_rflags, pop_error_word _ _ hreg _ (by decide),
      interrupted_word_rflags]
  rsp_eq := by
    rw [handle_rsp, pop_error_word _ _ hreg _ (by decide), interrupted_word_rsp]
  ss_eq := by
    rw [handle_ss, pop_error_word _ _ hreg _ (by decide), interrupted_word_ss,
      setWidth_selector]

theorem deliver_regs_error {reg : Reg} (hreg : reg ≠ .rsp) (error : BitVec 64) :
    (cpu.deliver (some error) mask).regs reg = cpu.regs reg := by
  simp only [deliver, push_regs_of_ne _ hreg, cpu.interrupted_regs hreg]

theorem handle_pop_reg {reg : Reg} (hreg : reg ≠ .rsp) (error : BitVec 64) :
    ((cpu.deliver (some error) mask).handle env [.pop reg]).regs reg =
      error := by
  rw [handle_regs_of_ne _ hreg]
  refine (setReg_regs_self _).trans ?_
  rw [deliver_word_error, push_word_zero]

theorem handle_pop_regs_of_ne {reg other : Reg} (hother : other ≠ reg)
    (hrsp : other ≠ .rsp) (error : BitVec 64) :
    ((cpu.deliver (some error) mask).handle env [.pop reg]).regs other =
      cpu.regs other := by
  rw [handle_regs_of_ne _ hrsp]
  refine (setReg_regs_of_ne _ hother).trans ?_
  exact (setReg_regs_of_ne _ hrsp).trans (deliver_regs_error _ _ hrsp _)

end Cpu

end Synos.Data
