import Synos.Mm.Heap

namespace Synos.Mm

open Synos.Data

/-! The early allocator: blocks are cut off one after another between the end of
the kernel image and a fixed limit. -/

def stackLimit : Nat := 0x200000

/-- Where the next block starts; the first call sets `MemStack` up. -/
def stackTop (memEnd : Nat) (kernel : Kernel) : Nat :=
  if kernel.memStackInit then kernel.memStack else memEnd + 64

structure StackSession where
  kernel : Kernel
  blocks : List (Nat × Nat)

inductive StackCall
  | malloc (bytes : Nat)
  | disable

def stackMachine (memEnd : Nat) : Machine Fault StackSession StackCall where
  step session
    | .malloc bytes =>
        let (kernel, address) := memstckMalloc memEnd session.kernel bytes
        .ok ⟨kernel,
          if address = 0 then session.blocks
          else (address, bytes) :: session.blocks⟩
    | .disable =>
        .ok { session with kernel := memstckDisable session.kernel }

/-- A block of `bytes` bytes has one more for its terminator. -/
def BlocksApart (first second : Nat × Nat) : Prop :=
  first.1 + first.2 + 1 ≤ second.1 ∨ second.1 + second.2 + 1 ≤ first.1

structure StackSession.Sound (memEnd : Nat) (session : StackSession) :
    Prop where
  inside : ∀ block ∈ session.blocks,
    memEnd + 64 ≤ block.1 ∧ block.1 + block.2 + 1 ≤ stackLimit
  apart : session.blocks.Pairwise BlocksApart

/-- What a request may do in the state it is made in. -/
structure RequestSound (memEnd : Nat) (session : StackSession)
    (bytes : Nat) (kernel : Kernel) (address : Nat) : Prop where
  inside : address ≠ 0 →
    memEnd + 64 ≤ address ∧ address + bytes + 1 ≤ stackLimit
  apart : address ≠ 0 →
    ∀ block ∈ session.blocks, BlocksApart (address, bytes) block
  writes : address ≠ 0 → kernel.memory (address + bytes) = 0 ∧
    ∀ other, other ≠ address + bytes →
      kernel.memory other = session.kernel.memory other
  grows : stackTop memEnd session.kernel ≤ stackTop memEnd kernel
  refused : address = 0 → kernel.memory = session.kernel.memory ∧
    stackTop memEnd kernel = stackTop memEnd session.kernel

/-- A request that gets as far as the bound check does not wrap around there. -/
def StackCall.Fits (memEnd : Nat) (session : StackSession) :
    StackCall → Prop
  | .malloc bytes =>
      bytes < wordSize ∧
        (session.kernel.memStackEnable = true →
          stackTop memEnd session.kernel < stackLimit →
          stackTop memEnd session.kernel + bytes < wordSize)
  | .disable => True

/-- The invariant: every block lies below the next one. -/
structure StackSession.Tracks (memEnd : Nat) (session : StackSession) :
    Prop where
  start : memEnd + 64 ≤ stackTop memEnd session.kernel
  limit : stackTop memEnd session.kernel ≤ stackLimit
  below : ∀ block ∈ session.blocks, memEnd + 64 ≤ block.1 ∧
    block.1 + block.2 + 1 ≤ stackTop memEnd session.kernel
  apart : session.blocks.Pairwise BlocksApart

theorem StackSession.Tracks.sound {memEnd : Nat} {session : StackSession}
    (htracks : session.Tracks memEnd) : session.Sound memEnd where
  inside := fun block hblock =>
    ⟨(htracks.below block hblock).1,
      Nat.le_trans (htracks.below block hblock).2 htracks.limit⟩
  apart := htracks.apart

theorem memstckMalloc_eq {memEnd : Nat} (hend : memEnd + 64 < stackLimit)
    (kernel : Kernel) (bytes : Nat) :
    memstckMalloc memEnd kernel bytes =
      let top := stackTop memEnd kernel
      let started := { kernel with memStack := top, memStackInit := true }
      if kernel.memStackEnable = false then (kernel, 0)
      else if stackLimit ≤ top then (memstckDisable started, 0)
      else if stackLimit ≤ wordAdd top bytes then (started, 0)
      else
        ({ started with
            memStack := wordAdd top (wordAdd bytes 1)
            memory := setBytes kernel.memory (wordAdd top bytes) 0 1 },
          top) := by
  have hfirst : wordAdd memEnd 64 = memEnd + 64 := by
    apply wordAdd_of_lt
    simp only [stackLimit, wordSize] at *
    omega
  obtain ⟨memory, headerStart, mmuEnabled, started, enabled, top⟩ := kernel
  cases started <;> simp only [memstckMalloc, stackTop, hfirst] <;> rfl

section

variable {memEnd bytes : Nat} {session : StackSession}

/-- What a request returns and leaves, when its sum does not wrap around. -/
theorem memstckMalloc_cases (hend : memEnd + 64 < stackLimit)
    (hfits : StackCall.Fits memEnd session (.malloc bytes)) :
    (∃ kernel, memstckMalloc memEnd session.kernel bytes = (kernel, 0) ∧
      kernel.memory = session.kernel.memory ∧
      stackTop memEnd kernel = stackTop memEnd session.kernel) ∨
    ∃ kernel, memstckMalloc memEnd session.kernel bytes =
        (kernel, stackTop memEnd session.kernel) ∧
      stackTop memEnd session.kernel + bytes + 1 ≤ stackLimit ∧
      stackTop memEnd kernel = stackTop memEnd session.kernel + bytes + 1 ∧
      kernel.memory =
        setBytes session.kernel.memory
          (stackTop memEnd session.kernel + bytes) 0 1 := by
  obtain ⟨hbytes, hsum⟩ := hfits
  rw [memstckMalloc_eq hend]
  simp only
  cases henabled : session.kernel.memStackEnable with
  | false =>
      rw [if_pos rfl]
      exact .inl ⟨_, rfl, rfl, rfl⟩
  | true =>
      rw [if_neg (by decide)]
      by_cases hfull : stackLimit ≤ stackTop memEnd session.kernel
      · rw [if_pos hfull]
        exact .inl ⟨_, rfl, rfl, rfl⟩
      · have hroom := hsum henabled (Nat.lt_of_not_le hfull)
        have hadd := wordAdd_of_lt hroom
        rw [if_neg hfull, hadd]
        by_cases hlarge : stackLimit ≤ stackTop memEnd session.kernel + bytes
        · rw [if_pos hlarge]
          exact .inl ⟨_, rfl, rfl, rfl⟩
        · have hnext : wordAdd (stackTop memEnd session.kernel)
              (wordAdd bytes 1) =
                stackTop memEnd session.kernel + bytes + 1 := by
            simp only [wordAdd, word, stackLimit, wordSize] at *
            omega
          rw [if_neg hlarge, hnext]
          exact .inr ⟨_, rfl, by omega, rfl, rfl⟩

theorem setBytes_one {memory : Memory} {address : Nat} (value : UInt8)
    (haddress : address < wordSize) :
    setBytes memory address value 1 = Function.update memory address value := by
  funext other
  by_cases hsame : other = address
  · have hzero : wordSub address address < 1 := by
      rw [wordSub_of_le (Nat.le_refl _) haddress]
      omega
    rw [hsame, Function.update_self, setBytes, if_pos ⟨haddress, hzero⟩]
  · rw [Function.update_of_ne hsame, setBytes, if_neg]
    intro h
    obtain ⟨hother, hnear⟩ := h
    simp only [wordSub, word, wordSize] at *
    omega

theorem StackSession.Tracks.request (htracks : session.Tracks memEnd)
    (hend : memEnd + 64 < stackLimit)
    (hfits : StackCall.Fits memEnd session (.malloc bytes)) :
    RequestSound memEnd session bytes
      (memstckMalloc memEnd session.kernel bytes).1
      (memstckMalloc memEnd session.kernel bytes).2 := by
  obtain ⟨hstart, hlimit, hbelow, hapart⟩ := htracks
  rcases memstckMalloc_cases hend hfits with
    ⟨kernel, hcall, hmemory, htop⟩ | ⟨kernel, hcall, hinside, htop, hmemory⟩
  · rw [hcall]
    exact ⟨fun h => absurd rfl h, fun h => absurd rfl h, fun h => absurd rfl h,
      Nat.le_of_eq htop.symm, fun _ => ⟨hmemory, htop⟩⟩
  · rw [hcall]
    rw [setBytes_one 0 (by simp only [stackLimit, wordSize] at *; omega)]
      at hmemory
    have hgrows : stackTop memEnd session.kernel ≤ stackTop memEnd kernel := by
      omega
    refine ⟨fun _ => ⟨hstart, hinside⟩, ?_, ?_, hgrows, ?_⟩
    · intro _ block hblock
      exact .inr (hbelow block hblock).2
    · intro _
      rw [hmemory]
      exact ⟨Function.update_self _ _ _, fun other hother =>
        Function.update_of_ne hother _ _⟩
    · intro hzero
      simp only at hzero
      omega

theorem stackMachine_malloc {kernel : Kernel} {address : Nat}
    (hcall : memstckMalloc memEnd session.kernel bytes = (kernel, address)) :
    (stackMachine memEnd).step session (.malloc bytes) =
      .ok ⟨kernel, if address = 0 then session.blocks
        else (address, bytes) :: session.blocks⟩ := by
  simp only [stackMachine, hcall]

theorem StackSession.Tracks.step (htracks : session.Tracks memEnd)
    (hend : memEnd + 64 < stackLimit) {call : StackCall}
    (hfits : call.Fits memEnd session) :
    ∃ next, (stackMachine memEnd).step session call = .ok next ∧
      next.Tracks memEnd := by
  obtain ⟨hstart, hlimit, hbelow, hapart⟩ := htracks
  cases call with
  | disable => exact ⟨_, rfl, hstart, hlimit, hbelow, hapart⟩
  | malloc bytes =>
      rcases memstckMalloc_cases hend hfits with
        ⟨kernel, hcall, -, htop⟩ | ⟨kernel, hcall, hinside, htop, -⟩
      · refine ⟨_, stackMachine_malloc hcall, ?_⟩
        rw [if_pos rfl]
        exact ⟨htop ▸ hstart, htop ▸ hlimit, htop ▸ hbelow, hapart⟩
      · have hne : stackTop memEnd session.kernel ≠ 0 := by omega
        have hgrows : stackTop memEnd session.kernel ≤ stackTop memEnd kernel :=
          by omega
        refine ⟨_, stackMachine_malloc hcall, ?_⟩
        rw [if_neg hne]
        refine ⟨Nat.le_trans hstart hgrows, htop ▸ hinside, ?_, ?_⟩
        · intro block hblock
          cases List.mem_cons.mp hblock with
          | inl hnew =>
              subst hnew
              exact ⟨hstart, Nat.le_of_eq htop.symm⟩
          | inr hold =>
              obtain ⟨hge, hle⟩ := hbelow block hold
              exact ⟨hge, Nat.le_trans hle hgrows⟩
        · refine List.pairwise_cons.mpr ⟨?_, hapart⟩
          intro block hblock
          exact .inr (hbelow block hblock).2

/-- A request whose sum wraps around gets a block that it does not fit into. -/
theorem StackSession.Tracks.request_iff (htracks : session.Tracks memEnd)
    (hend : memEnd + 64 < stackLimit) (hbytes : bytes < wordSize) :
    RequestSound memEnd session bytes
        (memstckMalloc memEnd session.kernel bytes).1
        (memstckMalloc memEnd session.kernel bytes).2 ↔
      StackCall.Fits memEnd session (.malloc bytes) := by
  refine ⟨?_, htracks.request hend⟩
  intro hsound
  refine ⟨hbytes, ?_⟩
  intro henabled hroom
  have hstart := htracks.start
  by_contra hwraps
  have hsum : wordAdd (stackTop memEnd session.kernel) bytes < stackLimit := by
    simp only [wordAdd, word, stackLimit, wordSize] at *
    omega
  have hcall : (memstckMalloc memEnd session.kernel bytes).2 =
      stackTop memEnd session.kernel := by
    rw [memstckMalloc_eq hend]
    simp only
    rw [if_neg (by rw [henabled]; decide), if_neg (Nat.not_le_of_lt hroom),
      if_neg (Nat.not_le_of_lt hsum)]
  have hinside := (hsound.inside (by omega)).2
  rw [hcall] at hinside
  simp only [stackLimit, wordSize] at *
  omega

end

/-- In every run whose requests do not wrap around at the bound check, the
blocks lie apart inside the early memory, and the next request is served
likewise exactly when it does not wrap around either. -/
theorem run_memstck_sound {memEnd : Nat} (hend : memEnd + 64 < stackLimit)
    {kernel : Kernel} (hinit : kernel.memStackInit = false)
    {calls : List StackCall}
    (hguard : (stackMachine memEnd).Guarded
      (fun session call => call.Fits memEnd session) ⟨kernel, []⟩ calls) :
    ∃ session, (stackMachine memEnd).run ⟨kernel, []⟩ calls = .ok session ∧
      session.Sound memEnd ∧
      ∀ bytes < wordSize,
        (RequestSound memEnd session bytes
            (memstckMalloc memEnd session.kernel bytes).1
            (memstckMalloc memEnd session.kernel bytes).2 ↔
          StackCall.Fits memEnd session (.malloc bytes)) := by
  have htop : stackTop memEnd kernel = memEnd + 64 := by
    rw [stackTop, hinit]
    rfl
  have hstart : StackSession.Tracks memEnd ⟨kernel, []⟩ :=
    ⟨Nat.le_of_eq htop.symm, htop ▸ Nat.le_of_lt hend,
      fun block hblock => absurd hblock List.not_mem_nil, List.Pairwise.nil⟩
  obtain ⟨session, hrun, htracks⟩ := Machine.run_completes
    (fun _ _ hstate hcall => StackSession.Tracks.step hstate hend hcall)
    hstart hguard
  exact ⟨session, hrun, htracks.sound,
    fun _ hbytes => htracks.request_iff hend hbytes⟩

/-- The kernel before its first request. -/
def earlyKernel : Kernel where
  memory := fun _ => 0
  headerStart := 0
  mmuEnabled := false
  memStackInit := false
  memStackEnable := true
  memStack := 0

theorem run_memstck_sound_two :
    ∃ session,
      (stackMachine 0x110000).run ⟨earlyKernel, []⟩
          [.malloc 100, .malloc 7] = .ok session ∧
        session.Sound 0x110000 ∧
        ∀ bytes < wordSize,
          (RequestSound 0x110000 session bytes
              (memstckMalloc 0x110000 session.kernel bytes).1
              (memstckMalloc 0x110000 session.kernel bytes).2 ↔
            StackCall.Fits 0x110000 session (.malloc bytes)) := by
  refine run_memstck_sound (by decide) rfl ⟨⟨by decide, by decide⟩, ?_⟩
  intro next hnext
  cases hnext
  exact ⟨⟨by decide, by decide⟩, fun _ _ => trivial⟩

/-- The whole address space is granted from a memory of one megabyte, and the
terminator lands in front of it. -/
theorem memstckMalloc_wraps :
    (memstckMalloc 0x110000 earlyKernel (2 ^ 64 - 1)).2 = 0x110040 ∧
      ¬ RequestSound 0x110000 ⟨earlyKernel, []⟩ (2 ^ 64 - 1)
        (memstckMalloc 0x110000 earlyKernel (2 ^ 64 - 1)).1
        (memstckMalloc 0x110000 earlyKernel (2 ^ 64 - 1)).2 := by
  have haddress :
      (memstckMalloc 0x110000 earlyKernel (2 ^ 64 - 1)).2 = 0x110040 := by
    decide
  refine ⟨haddress, ?_⟩
  intro hsound
  have hinside := (hsound.inside (by rw [haddress]; decide)).2
  rw [haddress] at hinside
  exact absurd hinside (by decide)

end Synos.Mm
