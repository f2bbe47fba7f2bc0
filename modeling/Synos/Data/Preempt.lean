import Synos.Data.Cpu

namespace Synos.Data

universe u v w

/-! A program on a processor with a stack that is interrupted between its
instructions: what it can tell of the interrupts. -/

inductive Event (Symbol : Type v) (World : Type u) (Line : Type w)
  | run (instr : Instr Symbol World)
  | interrupt (line : Line)

/-- The words of its own that a program has on the stack after an instruction
that reaches no register but those `kept`, and nothing outside the processor. -/
def Instr.depth {Symbol : Type v} {World : Type u} (kept : Reg → Prop)
    [DecidablePred kept] (depth : Nat) : Instr Symbol World → Option Nat
  | .push reg => if kept reg then some (depth + 1) else none
  | .pop reg => if kept reg ∧ 0 < depth then some (depth - 1) else none
  | .mov reg _ => if kept reg then some depth else none
  | .inc reg => if kept reg then some depth else none
  | .load _ _ | .store _ _ | .call _ => none

namespace Event

variable {World : Type u} {Symbol : Type v} {Line : Type w}

def program : List (Event Symbol World Line) → List (Instr Symbol World)
  | [] => []
  | .run instr :: events => instr :: program events
  | .interrupt _ :: events => program events

def lines : List (Event Symbol World Line) → List Line
  | [] => []
  | .run _ :: events => lines events
  | .interrupt line :: events => line :: lines events

end Event

/-- The program has from `depth` to `limit` words on the stack on its way to
`last`. -/
def Fits {Symbol : Type v} {World : Type u} (kept : Reg → Prop)
    [DecidablePred kept] (limit : Nat) :
    Nat → List (Instr Symbol World) → Nat → Prop
  | depth, [], last => depth = last ∧ depth ≤ limit
  | depth, instr :: program, last =>
      depth ≤ limit ∧
        match instr.depth kept depth with
        | some next => Fits kept limit next program last
        | none => False

instance {Symbol : Type v} {World : Type u} (kept : Reg → Prop)
    [DecidablePred kept] (limit : Nat) :
    ∀ depth (program : List (Instr Symbol World)) last,
      Decidable (Fits kept limit depth program last)
  | depth, [], last => inferInstanceAs (Decidable (depth = last ∧ _))
  | depth, instr :: program, last =>
      have : Decidable
          (match instr.depth kept depth with
            | some next => Fits kept limit next program last
            | none => False) :=
        match instr.depth kept depth with
        | some next => instDecidableFits kept limit next program last
        | none => inferInstanceAs (Decidable False)
      inferInstanceAs (Decidable (_ ∧ _))

namespace Cpu

variable {World : Type u} {Symbol : Type v} {Line : Type w}

/-- A line reaches the processor: `arrive` is what it does to the devices. -/
def interrupt (env : Symbol → Cpu World → Cpu World)
    (code : Line → List (Instr Symbol World)) (arrive : Line → World → World)
    (mask : BitVec 64) (cpu : Cpu World) (line : Line) : Cpu World :=
  ({ cpu with world := arrive line cpu.world }.deliver none mask).handle env
    (code line)

def event (env : Symbol → Cpu World → Cpu World)
    (code : Line → List (Instr Symbol World)) (arrive : Line → World → World)
    (mask : BitVec 64) (cpu : Cpu World) :
    Event Symbol World Line → Cpu World
  | .run instr => cpu.exec env instr
  | .interrupt line => cpu.interrupt env code arrive mask line

/-- The program cannot tell the two apart by the registers `kept` and the
`depth` words it has on the stack. -/
structure Alike (kept : Reg → Prop) (depth : Nat) (cpu other : Cpu World) :
    Prop where
  resumes : cpu.Resumes other
  reg_eq : ∀ reg, kept reg → cpu.regs reg = other.regs reg
  word_eq : ∀ k < depth, cpu.word k = other.word k
  aligned : other.regs .rsp % 8 = 0

section

variable {kept : Reg → Prop} {depth : Nat} {cpu other : Cpu World}
  {env : Symbol → Cpu World → Cpu World} {reg : Reg} {value : BitVec 64}

theorem aligned_iff {pointer : BitVec 64} :
    pointer % 8 = 0 ↔ pointer.toNat % 8 = 0 := by
  rw [← BitVec.toNat_inj, BitVec.toNat_umod]
  rfl

theorem aligned_sub {pointer : BitVec 64} (haligned : pointer % 8 = 0) :
    (pointer - 8) % 8 = 0 := by
  rw [aligned_iff] at *
  have hlt := pointer.isLt
  rw [BitVec.toNat_sub]
  change (2 ^ 64 - 8 + pointer.toNat) % 2 ^ 64 % 8 = 0
  omega

theorem aligned_add {pointer : BitVec 64} (haligned : pointer % 8 = 0) :
    (pointer + 8) % 8 = 0 := by
  rw [aligned_iff] at *
  rw [BitVec.toNat_add]
  change (pointer.toNat + 8) % 2 ^ 64 % 8 = 0
  omega

theorem Alike.refl (haligned : cpu.regs .rsp % 8 = 0) :
    Alike kept depth cpu cpu :=
  ⟨⟨rfl, rfl, rfl, rfl, rfl⟩, fun _ _ => rfl, fun _ _ => rfl, haligned⟩

theorem Alike.setReg (halike : Alike kept depth cpu other) (hreg : reg ≠ .rsp) :
    Alike kept depth (cpu.setReg reg value) (other.setReg reg value) where
  resumes :=
    { rip_eq := halike.resumes.rip_eq
      cs_eq := halike.resumes.cs_eq
      rflags_eq := halike.resumes.rflags_eq
      rsp_eq := by
        rw [setReg_regs_of_ne _ hreg.symm, setReg_regs_of_ne _ hreg.symm,
          halike.resumes.rsp_eq]
      ss_eq := halike.resumes.ss_eq }
  reg_eq := by
    intro moved hkept
    by_cases hsame : moved = reg
    · rw [hsame, setReg_regs_self, setReg_regs_self]
    · rw [setReg_regs_of_ne _ hsame, setReg_regs_of_ne _ hsame,
        halike.reg_eq moved hkept]
  word_eq := by
    intro k hk
    rw [setReg_word _ hreg, setReg_word _ hreg, halike.word_eq k hk]
  aligned := by
    rw [setReg_regs_of_ne _ hreg.symm]
    exact halike.aligned

theorem Alike.push (halike : Alike kept depth cpu other)
    (hrsp : ¬kept .rsp) (hspace : 8 * (depth + 1) < 2 ^ 64) :
    Alike kept (depth + 1) (cpu.push value) (other.push value) where
  resumes :=
    { rip_eq := halike.resumes.rip_eq
      cs_eq := halike.resumes.cs_eq
      rflags_eq := halike.resumes.rflags_eq
      rsp_eq := by rw [push_rsp, push_rsp, halike.resumes.rsp_eq]
      ss_eq := halike.resumes.ss_eq }
  reg_eq := by
    intro moved hkept
    have hmoved : moved ≠ .rsp := fun heq => hrsp (heq ▸ hkept)
    rw [push_regs_of_ne _ hmoved, push_regs_of_ne _ hmoved,
      halike.reg_eq moved hkept]
  word_eq := by
    intro k hk
    cases k with
    | zero => rw [push_word_zero, push_word_zero]
    | succ k =>
        rw [push_word_succ _ (by omega), push_word_succ _ (by omega),
          halike.word_eq k (Nat.lt_of_succ_lt_succ hk)]
  aligned := by
    rw [push_rsp]
    exact aligned_sub halike.aligned

theorem Alike.drop (halike : Alike kept (depth + 1) cpu other)
    (hrsp : ¬kept .rsp) : Alike kept depth cpu.drop other.drop where
  resumes :=
    { rip_eq := halike.resumes.rip_eq
      cs_eq := halike.resumes.cs_eq
      rflags_eq := halike.resumes.rflags_eq
      rsp_eq := by rw [drop_rsp, drop_rsp, halike.resumes.rsp_eq]
      ss_eq := halike.resumes.ss_eq }
  reg_eq := by
    intro moved hkept
    have hmoved : moved ≠ .rsp := fun heq => hrsp (heq ▸ hkept)
    rw [Cpu.drop, Cpu.drop, setReg_regs_of_ne _ hmoved,
      setReg_regs_of_ne _ hmoved, halike.reg_eq moved hkept]
  word_eq := by
    intro k hk
    rw [drop_word, drop_word, halike.word_eq (k + 1) (Nat.succ_lt_succ hk)]
  aligned := by
    rw [drop_rsp]
    exact aligned_add halike.aligned

theorem Alike.exec [DecidablePred kept] {next : Nat}
    {instr : Instr Symbol World} (halike : Alike kept depth cpu other)
    (hrsp : ¬kept .rsp) (hspace : 8 * (depth + 1) < 2 ^ 64)
    (hdepth : instr.depth kept depth = some next) :
    Alike kept next (cpu.exec env instr) (other.exec env instr) := by
  have hne : ∀ {reg}, kept reg → reg ≠ .rsp := by
    rintro _ hkept rfl
    exact hrsp hkept
  cases instr with
  | push reg =>
      obtain ⟨hkept, hnext⟩ := Option.ite_none_right_eq_some.mp hdepth
      cases hnext
      rw [Cpu.exec, Cpu.exec, halike.reg_eq reg hkept]
      exact halike.push hrsp hspace
  | pop reg =>
      obtain ⟨⟨hkept, hpos⟩, hnext⟩ := Option.ite_none_right_eq_some.mp hdepth
      cases hnext
      cases depth with
      | zero => cases hpos
      | succ below =>
          rw [Cpu.exec, Cpu.exec, halike.word_eq 0 hpos]
          exact (halike.drop hrsp).setReg (hne hkept)
  | mov reg value =>
      obtain ⟨hkept, hnext⟩ := Option.ite_none_right_eq_some.mp hdepth
      cases hnext
      exact halike.setReg (hne hkept)
  | inc reg =>
      obtain ⟨hkept, hnext⟩ := Option.ite_none_right_eq_some.mp hdepth
      cases hnext
      rw [Cpu.exec, Cpu.exec, halike.reg_eq reg hkept]
      exact halike.setReg (hne hkept)
  | load reg read => cases hdepth
  | store write reg => cases hdepth
  | call symbol => cases hdepth

theorem Alike.interrupt {code : Line → List (Instr Symbol World)}
    {arrive : Line → World → World} {mask : BitVec 64} {line : Line}
    (halike : Alike kept depth cpu other) (hrsp : ¬kept .rsp)
    (hspace : 8 * (depth + 6) < 2 ^ 64)
    (hcode : Balanced env (depth + 6) kept (code line)) :
    Alike kept depth (cpu.interrupt env code arrive mask line) other where
  resumes := by
    have hback := handle_resumes
      { cpu with world := arrive line cpu.world } mask hcode (by omega)
    exact
      { rip_eq := hback.rip_eq.trans halike.resumes.rip_eq
        cs_eq := hback.cs_eq.trans halike.resumes.cs_eq
        rflags_eq := hback.rflags_eq.trans halike.resumes.rflags_eq
        rsp_eq := hback.rsp_eq.trans halike.resumes.rsp_eq
        ss_eq := hback.ss_eq.trans halike.resumes.ss_eq }
  reg_eq := by
    intro reg hkept
    have hreg : reg ≠ .rsp := fun heq => hrsp (heq ▸ hkept)
    exact (handle_regs { cpu with world := arrive line cpu.world } mask hcode
      hreg hkept).trans (halike.reg_eq reg hkept)
  word_eq := by
    intro k hk
    have haligned : cpu.regs .rsp % 8 = 0 := by
      rw [halike.resumes.rsp_eq]
      exact halike.aligned
    exact (handle_word { cpu with world := arrive line cpu.world } mask hcode
      hspace haligned hk).trans (halike.word_eq k hk)
  aligned := halike.aligned

end

end Cpu

/-! Whole runs. -/

section

variable {World : Type u} {Symbol : Type v} {Line : Type w}
  {env : Symbol → Cpu World → Cpu World}
  {code : Line → List (Instr Symbol World)} {arrive : Line → World → World}
  {mask : BitVec 64} {kept : Reg → Prop} [DecidablePred kept]
  {depth limit last : Nat} {events : List (Event Symbol World Line)}
  {cpu other : Cpu World}

theorem Fits.le {program : List (Instr Symbol World)}
    (hfits : Fits kept limit depth program last) : depth ≤ limit := by
  cases program with
  | nil => exact hfits.2
  | cons instr program => exact hfits.1

/-- A program that was interrupted any number of times ends like the one that
never was. -/
theorem run_alike (hrsp : ¬kept .rsp) (hspace : 8 * (limit + 6) < 2 ^ 64)
    (hcode : ∀ line ∈ Event.lines events,
      Balanced env (limit + 6) kept (code line))
    (hfits : Fits kept limit depth (Event.program events) last)
    (halike : Cpu.Alike kept depth cpu other) :
    Cpu.Alike kept last (events.foldl (Cpu.event env code arrive mask) cpu)
      (other.execAll env (Event.program events)) := by
  induction events generalizing depth cpu other with
  | nil =>
      obtain ⟨rfl, -⟩ := hfits
      exact halike
  | cons event events ih =>
      have hdepth := hfits.le
      cases event with
      | run instr =>
          obtain ⟨-, hnext⟩ := hfits
          split at hnext
          · next next heq =>
              exact ih hcode hnext (halike.exec hrsp (by omega) heq)
          · exact hnext.elim
      | interrupt line =>
          have hblock := (hcode line List.mem_cons_self).shrink
            (Nat.add_le_add_right hdepth 6)
          exact ih (fun line hmem => hcode line (.tail _ hmem)) hfits
            (halike.interrupt hrsp (by omega) hblock)

theorem run_world {effect : Line → World → World}
    (heffect : ∀ line ∈ Event.lines events, ∀ cpu : Cpu World,
      (cpu.interrupt env code arrive mask line).world =
        effect line cpu.world)
    (hfits : Fits kept limit depth (Event.program events) last) :
    (events.foldl (Cpu.event env code arrive mask) cpu).world =
      (Event.lines events).foldl (fun world line => effect line world)
        cpu.world := by
  induction events generalizing depth cpu with
  | nil => rfl
  | cons event events ih =>
      cases event with
      | run instr =>
          obtain ⟨-, hnext⟩ := hfits
          split at hnext
          · next next heq =>
              have hworld : (cpu.exec env instr).world = cpu.world := by
                cases instr with
                | push reg => rfl
                | pop reg => rfl
                | mov reg value => rfl
                | inc reg => rfl
                | load reg read => cases heq
                | store write reg => cases heq
                | call symbol => cases heq
              rw [List.foldl_cons, Cpu.event, ih heffect hnext, hworld]
              rfl
          · exact hnext.elim
      | interrupt line =>
          rw [List.foldl_cons, Cpu.event,
            ih (fun line hmem => heffect line (.tail _ hmem)) hfits,
            heffect line List.mem_cons_self]
          rfl

end

end Synos.Data
