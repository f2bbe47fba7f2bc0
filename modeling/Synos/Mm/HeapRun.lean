import Synos.Mm.Release
import Synos.Mm.Grow

namespace Synos.Mm

open Synos.Data
open Synos.Paging (virtPageSize)

/-! Runs of `kmalloc` and `kfree`, with the owners of live blocks writing to them
in between. -/

/-- What the caller of `kmalloc` may use. -/
structure Allocation where
  address : Nat
  bytes : Nat
  deriving DecidableEq, Repr

structure HeapSession where
  kernel : Kernel
  live : List Allocation

/-- `grant` is what `__get_free_pages` returns should `kmalloc` call it. -/
inductive HeapCall
  | kmalloc (bytes grant : Nat)
  | kfree (address : Nat)
  | write (place : Nat) (value : UInt8)
  deriving Repr

namespace Allocation

def stop (allocation : Allocation) : Nat :=
  allocation.address + allocation.bytes

def Disjoint (allocation other : Allocation) : Prop :=
  allocation.stop ≤ other.address ∨ other.stop ≤ allocation.address

end Allocation

def heapStep (memEnd : Nat) (session : HeapSession) :
    HeapCall → Except Fault HeapSession
  | .kmalloc bytes grant =>
      match kmalloc memEnd (fun _ => grant) session.kernel bytes with
      | .error fault => .error fault
      | .ok (kernel, address) =>
          .ok {
            kernel := kernel
            live :=
              if address = 0 then session.live
              else ⟨address, bytes⟩ :: session.live }
  | .kfree address =>
      match kfree session.kernel address with
      | .error fault => .error fault
      | .ok kernel =>
          .ok {
            kernel := kernel
            live := session.live.filter
              (fun allocation => decide (allocation.address ≠ address)) }
  | .write place value =>
      .ok { session with
        kernel := { session.kernel with
          memory := Function.update session.kernel.memory place value } }

def heapMachine (memEnd : Nat) : Machine Fault HeapSession HeapCall where
  step := heapStep memEnd

/-- The pages lie inside the address space and in no header of the list. -/
def Kernel.Fresh (kernel : Kernel) (grant order : Nat) : Prop :=
  grant + 2 ^ order * virtPageSize ≤ wordSize ∧
    ∀ bases, Linked (headerNext kernel.memory) kernel.headerStart bases →
      ∀ h ∈ bases, h + headerSize kernel.memory h ≤ grant ∨
        grant + 2 ^ order * virtPageSize ≤ h

namespace HeapSession

/-- A live block lies in the pages of one header, behind the header, and overlaps
no header, no pointer and no other live block. -/
structure Safe (session : HeapSession) (bases : List Nat) : Prop where
  headers : Linked (headerNext session.kernel.memory)
    session.kernel.headerStart bases
  inside : ∀ allocation ∈ session.live, ∃ h ∈ bases,
    h + mheaderSize ≤ allocation.address ∧
      allocation.stop ≤ h + headerSize session.kernel.memory h
  beside : ∀ allocation ∈ session.live, ∀ h ∈ bases,
    allocation.stop ≤ h ∨ h + mheaderSize ≤ allocation.address
  pointers : ∀ h ∈ bases, ∃ nodes,
    Linked (pointerNext session.kernel.memory) (h + mheaderSize) nodes ∧
      ∀ allocation ∈ session.live, ∀ p ∈ nodes,
        allocation.stop ≤ p ∨ p + mpointerSize ≤ allocation.address
  apart : session.live.Pairwise Allocation.Disjoint

/-- Only live blocks are freed and written, and pages are fresh. -/
def Legal (session : HeapSession) : HeapCall → Prop
  | .kmalloc bytes grant =>
      grant = 0 ∨ session.kernel.Fresh grant (growOrder bytes)
  | .kfree address =>
      address = 0 ∨
        ∃ allocation ∈ session.live, allocation.address = address
  | .write place _ =>
      ∃ allocation ∈ session.live,
        allocation.address ≤ place ∧ place < allocation.stop

/-- `kmalloc` does not grow the heap, and `kfree` finds no pointer. -/
def Spares (session : HeapSession) : HeapCall → Prop
  | .kmalloc bytes grant =>
      bytes = 0 ∨ grant = 0 ∨
        ∃ bases, Linked (headerNext session.kernel.memory)
            session.kernel.headerStart bases ∧
          ∃ h ∈ bases, bytes ≤ headerSizeMax session.kernel.memory h
  | .kfree address =>
      ∀ bases, Linked (headerNext session.kernel.memory)
          session.kernel.headerStart bases →
        ∀ h ∈ bases, h < address →
          address < wordAdd h (headerSize session.kernel.memory h) →
          ∀ nodes, Linked (pointerNext session.kernel.memory)
              (h + mheaderSize) nodes →
            ∀ p ∈ nodes, p + mpointerSize * mpointerSize ≠ address
  | .write _ _ => True

/-- The live blocks are allocated segments of the heap, each its own. -/
structure Tracks (session : HeapSession) (headers : List Header) : Prop where
  enabled : session.kernel.mmuEnabled = true
  holds : session.kernel.Holds headers
  nonempty : headers ≠ []
  page : ∀ header ∈ headers, virtPageSize ≤ header.base
  owned : ∀ allocation ∈ session.live, ∃ header ∈ headers,
    ∃ pointer ∈ header.pointers, pointer.2.free = false ∧
      allocation.address = pointer.1 + mpointerSize ∧
      allocation.bytes ≤ pointer.2.length
  distinct : session.live.Pairwise
    (fun allocation other => allocation.address ≠ other.address)

variable {session : HeapSession} {headers : List Header}

theorem Tracks.segments_disjoint (htracks : session.Tracks headers)
    {header other : Header} {pointer place : Nat × Segment}
    (hheader : header ∈ headers) (hother : other ∈ headers)
    (hpointer : pointer ∈ header.pointers) (hplace : place ∈ other.pointers) :
    pointer = place ∨
      pointer.1 + mpointerSize + pointer.2.length ≤ place.1 ∨
        place.1 + mpointerSize + place.2.length ≤ pointer.1 := by
  rcases htracks.holds.apart_or_eq hheader hother with rfl | hapart
  · exact placed_disjoint hpointer hplace
  · have hbounds := Header.pointer_bounds hpointer
    have hother := Header.pointer_bounds hplace
    simp only [Header.Apart] at hapart
    omega

theorem Tracks.safe (htracks : session.Tracks headers) :
    session.Safe (headers.map Header.base) := by
  have hextent : ∀ allocation ∈ session.live, ∃ header ∈ headers,
      ∃ pointer ∈ header.pointers,
        allocation.address = pointer.1 + mpointerSize ∧
        allocation.stop ≤ pointer.1 + mpointerSize + pointer.2.length := by
    intro allocation hlive
    obtain ⟨header, hheader, pointer, hpointer, -, haddress, hbytes⟩ :=
      htracks.owned allocation hlive
    refine ⟨header, hheader, pointer, hpointer, haddress, ?_⟩
    rw [Allocation.stop]
    omega
  constructor
  · exact htracks.holds.list
  · intro allocation hlive
    obtain ⟨header, hheader, pointer, hpointer, haddress, hstop⟩ :=
      hextent allocation hlive
    have hbounds := Header.pointer_bounds hpointer
    have hsize := (htracks.holds.stored header hheader).size
    exact ⟨header.base, List.mem_map.mpr ⟨header, hheader, rfl⟩, by omega,
      by omega⟩
  · intro allocation hlive h hbase
    obtain ⟨other, hother, rfl⟩ := List.mem_map.mp hbase
    obtain ⟨header, hheader, pointer, hpointer, haddress, hstop⟩ :=
      hextent allocation hlive
    have hbounds := Header.pointer_bounds hpointer
    have hge := (htracks.holds.stored other hother).toChained.size_ge
    rcases htracks.holds.apart_or_eq hheader hother with rfl | hapart
    · exact .inr (by omega)
    · simp only [Header.Apart] at hapart
      omega
  · intro h hbase
    obtain ⟨other, hother, rfl⟩ := List.mem_map.mp hbase
    refine ⟨_, (htracks.holds.stored other hother).chain, ?_⟩
    intro allocation hlive p hp
    obtain ⟨place, hplace, rfl⟩ := List.mem_map.mp hp
    obtain ⟨header, hheader, pointer, hpointer, haddress, hstop⟩ :=
      hextent allocation hlive
    rcases htracks.segments_disjoint hheader hother hpointer hplace with
      rfl | hdisjoint
    · exact .inr (by omega)
    · omega
  · refine htracks.distinct.imp_of_mem ?_
    intro allocation other hlive hotherLive hdistinct
    obtain ⟨header, hheader, pointer, hpointer, haddress, hstop⟩ :=
      hextent allocation hlive
    obtain ⟨second, hsecond, place, hplace, hother, hotherStop⟩ :=
      hextent other hotherLive
    rw [Allocation.Disjoint]
    rcases htracks.segments_disjoint hheader hsecond hpointer hplace with
      rfl | hdisjoint
    · omega
    · omega

theorem Tracks.mono (htracks : session.Tracks headers)
    {live : List Allocation} (hsub : live.Sublist session.live) :
    HeapSession.Tracks ⟨session.kernel, live⟩ headers where
  enabled := htracks.enabled
  holds := htracks.holds
  nonempty := htracks.nonempty
  page := htracks.page
  owned := fun allocation hlive =>
    htracks.owned allocation (hsub.subset hlive)
  distinct := htracks.distinct.sublist hsub

theorem Tracks.kfree (htracks : session.Tracks headers) (memEnd : Nat)
    {address : Nat} (hspares : session.Spares (.kfree address)) :
    ∃ next, heapStep memEnd session (.kfree address) = .ok next ∧
      next.Tracks headers ∧ next.kernel = session.kernel := by
  have hcall : Mm.kfree session.kernel address = .ok session.kernel := by
    refine kfree_missed htracks.enabled htracks.holds htracks.page ?_
    intro header hheader hcontains p hp
    have hstored := htracks.holds.stored header hheader
    refine hspares _ htracks.holds.list header.base
      (List.mem_map.mpr ⟨header, hheader, rfl⟩) hcontains.1 ?_ _
      hstored.chain p hp
    rw [hstored.size]
    exact hcontains.2
  rw [heapStep, hcall]
  exact ⟨_, rfl, htracks.mono List.filter_sublist, rfl⟩

end HeapSession

namespace FirstFit

variable {headers : List Header} {bytes : Nat}

theorem pointer_mem (fit : FirstFit headers bytes) :
    (fit.pointer, fit.chosen) ∈ fit.header.pointers := by
  rw [Header.pointers, fit.segments_eq, mem_placed_append]
  exact .inr (.inl rfl)

theorem header_mem (fit : FirstFit headers bytes) : fit.header ∈ headers := by
  obtain ⟨front, header, back, before, chosen, after, rfl, -, -, -, -, -⟩ := fit
  simp

theorem keeps (fit : FirstFit headers bytes) {header : Header}
    (hheader : header ∈ headers) {pointer : Nat × Segment}
    (hpointer : pointer ∈ header.pointers)
    (hallocated : pointer.2.free = false) :
    ∃ other ∈ fit.served, pointer ∈ other.pointers := by
  have hmem := hheader
  rw [fit.headers_eq, List.mem_append, List.mem_cons] at hmem
  rcases hmem with hmem | rfl | hmem
  · exact ⟨header, by simp [served, hmem], hpointer⟩
  · refine ⟨_, List.mem_append_right _ (.head _), ?_⟩
    rw [Header.pointers, fit.segments_eq, mem_placed_append] at hpointer
    rw [Header.pointers, placed_append, placed_append, List.mem_append,
      List.mem_append]
    rcases hpointer with hpointer | rfl | hpointer
    · exact .inl (.inl hpointer)
    · rw [fit.free] at hallocated
      cases hallocated
    · refine .inr ?_
      rw [spans_append, spans_carve fit.fits, ← Nat.add_assoc,
        ← Nat.add_assoc]
      exact hpointer
  · exact ⟨header, by simp [served, hmem], hpointer⟩

theorem kept_mem (fit : FirstFit headers bytes) :
    ∃ other ∈ fit.served, ∃ kept, (fit.pointer, kept) ∈ other.pointers ∧
      kept.free = false ∧ bytes ≤ kept.length := by
  obtain ⟨kept, rest, hcarve, hlength, hallocated, -⟩ := carve_head fit.fits
  refine ⟨_, List.mem_append_right _ (.head _), kept, ?_, hallocated, hlength⟩
  rw [hcarve, List.append_assoc, List.cons_append, Header.pointers,
    mem_placed_append]
  exact .inr (.inl rfl)

theorem base_of_served (fit : FirstFit headers bytes) {other : Header}
    (hother : other ∈ fit.served) :
    ∃ header ∈ headers, header.base = other.base := by
  rw [served, List.mem_append, List.mem_cons] at hother
  have hfront : ∀ header ∈ fit.front ++ fit.header :: fit.back,
      header ∈ headers := fun header hheader => fit.headers_eq ▸ hheader
  rcases hother with hother | rfl | hother
  · exact ⟨other, hfront other (by simp [hother]), rfl⟩
  · exact ⟨fit.header, fit.header_mem, rfl⟩
  · exact ⟨other, hfront other (by simp [hother]), rfl⟩

end FirstFit

namespace HeapSession

variable {session : HeapSession} {headers : List Header} {bytes : Nat}

theorem Tracks.agrees (htracks : session.Tracks headers)
    (hbytes : 0 < bytes) (fit : FirstFit headers bytes) {served : Memory}
    (hframe : ∀ place,
      (place < fit.header.base + 8 ∨ fit.header.base + 16 ≤ place) →
      (place < fit.pointer ∨ fit.address ≤ place) →
      (place < fit.address + bytes ∨
        fit.address + fit.chosen.length ≤ place) →
      served place = session.kernel.memory place)
    {allocation : Allocation} (hlive : allocation ∈ session.live) :
    Agrees session.kernel.memory served allocation.address
        allocation.stop ∧
      allocation.address ≠ fit.address := by
  obtain ⟨header, hheader, pointer, hpointer, hallocated, haddress, hlength⟩ :=
    htracks.owned allocation hlive
  have hbounds := Header.pointer_bounds hpointer
  have hapart : pointer.1 + mpointerSize + pointer.2.length ≤ fit.pointer ∨
      fit.pointer + mpointerSize + fit.chosen.length ≤ pointer.1 := by
    refine (htracks.segments_disjoint hheader fit.header_mem hpointer
      fit.pointer_mem).resolve_left ?_
    rintro rfl
    rw [fit.free] at hallocated
    cases hallocated
  have hheaders := htracks.holds.apart_or_eq hheader fit.header_mem
  have hpages := Header.pointer_bounds fit.pointer_mem
  have hfits := fit.fits
  have hsame : fit.header.base + 16 ≤ pointer.1 + mpointerSize ∨
      pointer.1 + mpointerSize + pointer.2.length ≤ fit.header.base := by
    rcases hheaders with rfl | hheaders
    · simp only [mheaderSize, mpointerSize] at *
      omega
    · simp only [Header.Apart, mheaderSize, mpointerSize] at *
      omega
  simp only [FirstFit.address, Allocation.stop, mpointerSize] at *
  constructor
  · intro place hge hlt
    exact hframe place (by omega) (by omega) (by omega)
  · omega

theorem Tracks.fit (htracks : session.Tracks headers)
    (fit : FirstFit headers bytes) {served : Memory}
    (hserved : Kernel.Holds { session.kernel with memory := served }
      fit.served)
    (hnew : ∀ allocation ∈ session.live,
      allocation.address ≠ fit.address) :
    HeapSession.Tracks
      ⟨{ session.kernel with memory := served },
        ⟨fit.address, bytes⟩ :: session.live⟩ fit.served where
  enabled := htracks.enabled
  holds := hserved
  nonempty := by simp [FirstFit.served]
  page := by
    intro other hother
    obtain ⟨header, hheader, hbase⟩ := fit.base_of_served hother
    rw [← hbase]
    exact htracks.page header hheader
  owned := by
    intro allocation hlive
    rw [List.mem_cons] at hlive
    rcases hlive with rfl | hlive
    · obtain ⟨other, hother, kept, hpointer, hallocated, hlength⟩ :=
        fit.kept_mem
      exact ⟨other, hother, _, hpointer, hallocated, rfl, hlength⟩
    · obtain ⟨header, hheader, pointer, hpointer, hallocated, hextent⟩ :=
        htracks.owned allocation hlive
      obtain ⟨other, hother, hkept⟩ := fit.keeps hheader hpointer hallocated
      exact ⟨other, hother, pointer, hkept, hallocated, hextent⟩
  distinct := List.pairwise_cons.mpr
    ⟨fun other hother => (hnew other hother).symm, htracks.distinct⟩

theorem Tracks.unserved (htracks : session.Tracks headers) {grant : Nat}
    (hspares : session.Spares (.kmalloc bytes grant))
    (hnone : ¬ ∃ header ∈ headers, bytes ≤ header.sizeMax) :
    bytes = 0 ∨ grant = 0 := by
  rcases hspares with hzero | hnull | ⟨bases, hlist, h, hbase, hfits⟩
  · exact .inl hzero
  · exact .inr hnull
  · rw [hlist.unique htracks.holds.list] at hbase
    obtain ⟨header, hheader, rfl⟩ := List.mem_map.mp hbase
    rw [(htracks.holds.stored header hheader).sizeMax] at hfits
    exact absurd ⟨header, hheader, hfits⟩ hnone

theorem Tracks.kmalloc (htracks : session.Tracks headers) (memEnd : Nat)
    {grant : Nat} (hspares : session.Spares (.kmalloc bytes grant)) :
    ∃ next after, heapStep memEnd session (.kmalloc bytes grant) = .ok next ∧
      next.Tracks after ∧
      ∀ allocation ∈ session.live,
        Agrees session.kernel.memory next.kernel.memory allocation.address
          allocation.stop := by
  by_cases hserves : 0 < bytes ∧ ∃ header ∈ headers, bytes ≤ header.sizeMax
  · obtain ⟨hbytes, hsome⟩ := hserves
    obtain ⟨fit⟩ := FirstFit.exists_of_le_sizeMax hbytes hsome
    obtain ⟨served, hcall, hserved, hframe⟩ :=
      kmalloc_fit memEnd (fun _ => grant) htracks.enabled htracks.holds hbytes
        fit
    have hagrees := fun allocation (hlive : allocation ∈ session.live) =>
      htracks.agrees hbytes fit hframe hlive
    refine ⟨_, fit.served, ?_, htracks.fit fit hserved
      (fun allocation hlive => (hagrees allocation hlive).2),
      fun allocation hlive => (hagrees allocation hlive).1⟩
    have hne : fit.address ≠ 0 := by
      simp [FirstFit.address, mpointerSize]
    rw [heapStep, hcall]
    simp only [if_neg hne]
  · have hcall : Mm.kmalloc memEnd (fun _ => grant) session.kernel bytes =
        .ok (session.kernel, 0) := by
      by_cases hbytes : bytes = 0
      · rw [Mm.kmalloc, if_pos hbytes]
      have hnone : ¬ ∃ header ∈ headers, bytes ≤ header.sizeMax :=
        fun hsome => hserves ⟨by omega, hsome⟩
      have hgrant := (htracks.unserved hspares hnone).resolve_left hbytes
      obtain ⟨front, header, hheaders⟩ :=
        (List.eq_nil_or_concat headers).resolve_left htracks.nonempty
      rw [List.concat_eq_append] at hheaders
      subst hheaders
      rw [kmalloc_grow memEnd htracks.enabled htracks.holds (by omega)
        (fun other hother => by
          by_contra hfits
          exact hnone ⟨other, hother, Nat.le_of_not_lt hfits⟩)
        (by rw [hgrant]; decide), if_pos hgrant]
    refine ⟨session, headers, ?_, htracks, fun _ _ _ _ _ => rfl⟩
    rw [heapStep, hcall]
    simp

theorem Tracks.write (htracks : session.Tracks headers) (memEnd : Nat)
    {place : Nat} {value : UInt8}
    (hlegal : session.Legal (.write place value)) :
    ∃ next, heapStep memEnd session (.write place value) = .ok next ∧
      next.Tracks headers := by
  obtain ⟨allocation, hlive, hge, hlt⟩ := hlegal
  obtain ⟨header, hheader, pointer, hpointer, -, haddress, hlength⟩ :=
    htracks.owned allocation hlive
  have hstored := htracks.holds.stored header hheader
  have hinside := htracks.holds.inside header hheader
  have hbounds := Header.pointer_bounds hpointer
  obtain ⟨before, after, hsegments, hplace⟩ := exists_of_mem_placed hpointer
  rw [Allocation.stop] at hlt
  have hframe : ∀ other, other ≠ place →
      Function.update session.kernel.memory place value other =
        session.kernel.memory other :=
    fun other hne => Function.update_of_ne hne _ _
  have hword : ∀ word, word + 8 ≤ pointer.1 + mpointerSize →
      load64 (Function.update session.kernel.memory place value) word =
        load64 session.kernel.memory word := by
    intro word hword
    simp only [mpointerSize] at *
    exact load64_congr (by omega)
      (fun other _ hother => hframe other (by omega))
  refine ⟨_, rfl, ⟨htracks.enabled, ?_, htracks.nonempty, htracks.page,
    htracks.owned, htracks.distinct⟩⟩
  obtain ⟨base, segments⟩ := header
  simp only [Header.start] at hplace
  simp only at hsegments
  subst hsegments
  have hinside : base + mheaderSize +
      spans (before ++ pointer.2 :: after) ≤ wordSize := by
    rw [Nat.add_assoc]
    exact hinside
  have hchained := hstored.toChained.relabel hinside rfl
    (fun other hother => hframe other
      (by simp only [mpointerSize] at *; omega))
    (by
      rw [← hplace]
      exact (hword _ (by simp only [mpointerSize]; omega)).trans
        (hstored.sizes pointer hpointer))
    (by
      rw [← hplace]
      exact hword _ (by simp only [mpointerSize]; omega))
  obtain ⟨front, back, rfl⟩ := List.append_of_mem hheader
  simp only [mheaderSize, mpointerSize] at *
  refine htracks.holds.update rfl ⟨hchained, ?_, ?_⟩ ?_
  · exact (hword base (by omega)).trans hstored.size
  · exact (hword (base + 8) (by omega)).trans hstored.sizeMax
  · intro other _ hother
    simp only [Header.start, mheaderSize] at hother
    exact hframe other (by omega)

theorem Tracks.step (htracks : session.Tracks headers) (memEnd : Nat)
    {op : HeapCall} (hlegal : session.Legal op) (hspares : session.Spares op) :
    ∃ next after, heapStep memEnd session op = .ok next ∧
      next.Tracks after ∧
      ((∀ place value, op ≠ .write place value) →
        ∀ allocation ∈ session.live,
          Agrees session.kernel.memory next.kernel.memory
            allocation.address allocation.stop) := by
  cases op with
  | kmalloc bytes grant =>
      obtain ⟨next, after, hstep, hnext, hagrees⟩ :=
        htracks.kmalloc memEnd hspares
      exact ⟨next, after, hstep, hnext, fun _ => hagrees⟩
  | kfree address =>
      obtain ⟨next, hstep, hnext, hkernel⟩ := htracks.kfree memEnd hspares
      refine ⟨next, headers, hstep, hnext, ?_⟩
      intro _ allocation _ place _ _
      rw [hkernel]
  | write place value =>
      obtain ⟨next, hstep, hnext⟩ := htracks.write memEnd hlegal
      exact ⟨next, headers, hstep, hnext,
        fun hne => absurd rfl (hne place value)⟩

end HeapSession

/-- The heap that `mm_init` builds stays safe over every run whose requests are
served by the headers that are there and whose frees find no pointer. -/
theorem run_heap_safe (memEnd : Nat) (kernel : Kernel) {heapPage : Nat}
    (hpage : heapPage ≠ 0) (haligned : virtPageSize ∣ heapPage)
    (hspace : heapPage + virtPageSize ≤ wordSize) :
    ∃ started, mmInit kernel heapPage = .ok started ∧
      ∀ ops, (heapMachine memEnd).Guarded
          (fun session op => session.Legal op ∧ session.Spares op)
          ⟨started, []⟩ ops →
        ∃ session bases,
          (heapMachine memEnd).run ⟨started, []⟩ ops = .ok session ∧
          session.Safe bases ∧
          ∀ op, session.Legal op → session.Spares op →
            ∃ next after, heapStep memEnd session op = .ok next ∧
              next.Safe after ∧
              ((∀ place value, op ≠ .write place value) →
                ∀ allocation ∈ session.live,
                  Agrees session.kernel.memory next.kernel.memory
                    allocation.address allocation.stop) := by
  obtain ⟨started, hstarted, henabled, hholds⟩ :=
    mmInit_holds kernel hpage hspace
  refine ⟨started, hstarted, ?_⟩
  intro ops hguard
  have hinit : HeapSession.Tracks ⟨started, []⟩ [firstHeader heapPage] := by
    refine ⟨henabled, hholds, by simp, ?_, by simp, List.Pairwise.nil⟩
    simp only [List.mem_singleton]
    rintro header rfl
    exact Nat.le_of_dvd (Nat.pos_of_ne_zero hpage) haligned
  obtain ⟨session, hrun, headers, htracks⟩ :=
    @Machine.run_completes _ _ _ (heapMachine memEnd)
      (fun session op => session.Legal op ∧ session.Spares op)
      (fun session => ∃ headers, session.Tracks headers)
      (fun session op ⟨headers, htracks⟩ ⟨hlegal, hspares⟩ => by
        obtain ⟨next, after, hstep, hnext, -⟩ :=
          htracks.step memEnd hlegal hspares
        exact ⟨next, hstep, after, hnext⟩)
      ⟨started, []⟩ ops ⟨_, hinit⟩ hguard
  refine ⟨session, _, hrun, htracks.safe, ?_⟩
  intro op hlegal hspares
  obtain ⟨next, after, hstep, hnext, hagrees⟩ :=
    htracks.step memEnd hlegal hspares
  exact ⟨next, _, hstep, hnext.safe, hagrees⟩

/-- A block is handed out and freed again, and no pages are left for a second
one. -/
theorem run_heap_safe_freed :
    ∃ started, mmInit bootKernel 0x10000 = .ok started ∧
      ∃ session bases,
        (heapMachine 0).run ⟨started, []⟩
          [.kmalloc 100 0, .kfree 0x10028, .kmalloc 5000 0] = .ok session ∧
        session.Safe bases := by
  have hview : ((mmInit bootKernel 0x10000).bind fun started =>
      (heapStep 0 ⟨started, []⟩ (.kmalloc 100 0)).map fun next =>
        ((next.kernel.headerStart, headerNext next.kernel.memory 0x10000),
          (pointerNext next.kernel.memory 0x10018,
            pointerNext next.kernel.memory 0x1008c),
          decide (∃ allocation ∈ next.live, allocation.address = 0x10028))) =
      .ok ((0x10000, 0), (0x1008c, 0), true) := by
    decide +kernel
  obtain ⟨started, hstarted, hruns⟩ :=
    @run_heap_safe 0 bootKernel 0x10000 (by decide) (by decide) (by decide)
  rw [hstarted] at hview
  obtain ⟨next, hnext, hnextView⟩ := exists_of_map_eq_ok hview
  simp only [Prod.mk.injEq] at hnextView
  obtain ⟨⟨hstart, hend⟩, ⟨hfirst, hlast⟩, hlive⟩ := hnextView
  obtain ⟨session, bases, hrun, hsafe, -⟩ :=
    hruns [.kmalloc 100 0, .kfree 0x10028, .kmalloc 5000 0] (by
      refine ⟨⟨.inl rfl, .inr (.inl rfl)⟩, fun other hother => ?_⟩
      obtain rfl : next = other := Except.ok.inj (hnext.symm.trans hother)
      refine ⟨⟨.inr (of_decide_eq_true hlive), ?_⟩, fun last _ =>
        ⟨⟨.inl rfl, .inr (.inl rfl)⟩, fun _ _ => trivial⟩⟩
      intro bases hlist h hbase hbelow hinside nodes hnodes p hp
      have hbases : Linked (headerNext next.kernel.memory)
          next.kernel.headerStart [0x10000] := ⟨hstart, by decide, hend⟩
      rw [hlist.unique hbases, List.mem_singleton] at hbase
      subst hbase
      have hpointers : Linked (pointerNext next.kernel.memory) 0x10018
          [0x10018, 0x1008c] :=
        ⟨rfl, by decide, hfirst, by decide, hlast⟩
      rw [hnodes.unique hpointers] at hp
      simp only [List.mem_cons, List.not_mem_nil, or_false] at hp
      rcases hp with rfl | rfl <;> decide)
  exact ⟨started, hstarted, session, bases, hrun, hsafe⟩

/-- The heap grows by two pages, and the next block reaches beyond them. -/
theorem run_heap_beyond :
    ∃ started, mmInit bootKernel 0x10000 = .ok started ∧
      (heapMachine 0).Guarded HeapSession.Legal ⟨started, []⟩
        [.kmalloc 4056 0, .kmalloc 5000 0x20000, .kmalloc 3170 0] ∧
      ∃ session,
        (heapMachine 0).run ⟨started, []⟩
          [.kmalloc 4056 0, .kmalloc 5000 0x20000, .kmalloc 3170 0] =
            .ok session ∧
        ⟨0x213c0, 3170⟩ ∈ session.live ∧ ∀ bases, ¬ session.Safe bases := by
  have hfirst : ((mmInit bootKernel 0x10000).bind fun started =>
      (heapStep 0 ⟨started, []⟩ (.kmalloc 4056 0)).map fun next =>
        (next.kernel.headerStart, headerNext next.kernel.memory 0x10000,
          headerSize next.kernel.memory 0x10000)) =
      .ok (0x10000, 0, 0x1000) := by
    decide +kernel
  have hlast : ((mmInit bootKernel 0x10000).bind fun started =>
      ((heapMachine 0).run ⟨started, []⟩
        [.kmalloc 4056 0, .kmalloc 5000 0x20000, .kmalloc 3170 0]).map
      fun session =>
        ((session.kernel.headerStart, headerNext session.kernel.memory 0x10000,
            headerNext session.kernel.memory 0x20000),
          (headerSize session.kernel.memory 0x10000,
            headerSize session.kernel.memory 0x20000),
          decide (⟨0x213c0, 3170⟩ ∈ session.live))) =
      .ok ((0x10000, 0x20000, 0), (0x1000, 0x2000), true) := by
    decide +kernel
  obtain ⟨started, hstarted, -⟩ :=
    @mmInit_holds bootKernel 0x10000 (by decide) (by decide)
  rw [hstarted] at hfirst hlast
  obtain ⟨next, hnext, hviewNext⟩ := exists_of_map_eq_ok hfirst
  obtain ⟨session, hrun, hview⟩ := exists_of_map_eq_ok hlast
  simp only [Prod.mk.injEq] at hviewNext hview
  obtain ⟨hnextStart, hnextEnd, hnextSize⟩ := hviewNext
  obtain ⟨⟨hstart, hsecond, hend⟩, ⟨hsize, hpages⟩, hblock⟩ := hview
  have hlive := of_decide_eq_true hblock
  refine ⟨started, hstarted, ?_, session, hrun, hlive, ?_⟩
  · refine ⟨.inl rfl, fun other hother => ?_⟩
    have hsame : next = other := Except.ok.inj (hnext.symm.trans hother)
    subst hsame
    refine ⟨.inr ⟨by decide, ?_⟩, fun _ _ => ⟨.inl rfl, fun _ _ => trivial⟩⟩
    intro bases hlist h hbase
    rw [hnextStart] at hlist
    have hbases : Linked (headerNext next.kernel.memory) 0x10000 [0x10000] :=
      ⟨rfl, by decide, hnextEnd⟩
    rw [hlist.unique hbases, List.mem_singleton] at hbase
    subst hbase
    exact .inl (by rw [hnextSize]; decide)
  · intro bases hsafe
    have hlist := hsafe.headers
    rw [hstart] at hlist
    have hbases : Linked (headerNext session.kernel.memory) 0x10000
        [0x10000, 0x20000] := ⟨rfl, by decide, hsecond, by decide, hend⟩
    obtain ⟨h, hbase, -, hstop⟩ := hsafe.inside _ hlive
    rw [hlist.unique hbases, List.mem_cons, List.mem_singleton] at hbase
    rcases hbase with rfl | rfl
    · rw [hsize] at hstop
      exact absurd hstop (by decide)
    · rw [hpages] at hstop
      exact absurd hstop (by decide)

end Synos.Mm
