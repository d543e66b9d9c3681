import Xv6.Umalloc.Heap
import Xv6.Vm.Growproc

/-!
# The allocator on the kernel's `sbrk`

`malloc` computes with 32-bit words: it rounds the bytes up to units, `morecore` turns the units
into bytes again, and `sbrk` reads those as an `int`. As long as the bytes stay a positive `int`,
the process grows by what `malloc` counts on. Beyond that `sbrk` shrinks the process, or does
nothing and reports success, and for the largest sizes the rounding itself starts again at 0.
-/

namespace Xv6.Umalloc

open Lib Vm

/-- The size that `growproc` leaves, or `none` for -1. The word `n` stands for an `int`, and `mem`
says whether there are pages to grow by. -/
def growSize (mem : Bool) (sz n : ℕ) : Option ℕ :=
  let newsz := (sz + n) % 2 ^ 32
  if n = 0 then some sz
  else
    let r :=
      if n < 2 ^ 31 then
        if KERNBASE ≤ newsz then 0 else if newsz < sz then sz else if mem then newsz else 0
      else
        if sz ≤ newsz then sz else newsz
    if r = 0 then none else some r

/-- A growth adds the bytes, if it succeeds. -/
theorem growSize_of_pos {mem : Bool} {sz n : ℕ} (hsz : sz ≤ KERNBASE) (hn : 0 < n)
    (hn' : n < 2 ^ 31) :
    growSize mem sz n = if mem ∧ sz + n < KERNBASE then some (sz + n) else none := by
  have hmod : (sz + n) % 2 ^ 32 = sz + n := by
    rw [KERNBASE] at hsz
    omega
  unfold growSize
  dsimp only
  rw [hmod, if_neg hn.ne', if_pos hn', if_neg (show ¬sz + n < sz by omega)]
  by_cases hle : KERNBASE ≤ sz + n
  · rw [if_pos hle, if_pos rfl, if_neg (by omega)]
  · rw [if_neg hle]
    cases mem with
    | false => rfl
    | true => rw [if_pos rfl, if_neg (by omega), if_pos ⟨rfl, by omega⟩]

/-- The size of a process with a page table is what `growSize` says. -/
theorem growproc_growSize {im : Image} {others : Set ℕ} {s : Mem} {d sz : ℕ}
    (h : Sized im others s d sz) (n : Int32) :
    Wp (growproc im d sz n.toInt) s
      (fun r _ => ∃ mem, growSize mem sz (n.toInt % 2 ^ 32).toNat =
        if r.1 = 0 then some r.2 else none)
      fun _ => False := by
  have hsz := h.le
  have hlo := n.le_toInt
  have hhi := n.toInt_lt
  generalize n.toInt = k at hlo hhi
  unfold growproc
  dsimp only
  rcases lt_trichotomy k 0 with hk | rfl | hk
  · -- the word is at least `2 ^ 31`
    obtain ⟨m, hm⟩ : ∃ m : ℕ, (k % 2 ^ 32).toNat = m := ⟨_, rfl⟩
    have hnew : ((sz + k) % 2 ^ 32).toNat = (sz + m) % 2 ^ 32 := by omega
    have hgrow : ∀ mem, growSize mem sz m =
        if (if sz ≤ (sz + m) % 2 ^ 32 then sz else (sz + m) % 2 ^ 32) = 0 then none
        else some (if sz ≤ (sz + m) % 2 ^ 32 then sz else (sz + m) % 2 ^ 32) := fun mem => by
      unfold growSize
      dsimp only
      rw [if_neg (show ¬m = 0 by omega), if_neg (show ¬m < 2 ^ 31 by omega)]
    rw [if_neg (by omega), if_pos hk, hm, hnew]
    have hdealloc : Wp (deallocuvm im d sz ((sz + m) % 2 ^ 32)) s
        (fun r _ => r = if sz ≤ (sz + m) % 2 ^ 32 then sz else (sz + m) % 2 ^ 32)
        fun _ => False := by
      by_cases hle : sz ≤ (sz + m) % 2 ^ 32
      · rw [deallocuvm, if_pos hle, if_pos hle, Wp.pure_iff]
      · rw [if_neg hle]
        exact (h.deallocuvm_spec (not_le.mp hle)).post fun r t hr => hr.1
    refine hdealloc.bind fun r t hr => ?_
    rw [← hr] at hgrow
    split_ifs with hzero
    · exact ⟨true, by rw [hgrow, if_pos hzero]; rfl⟩
    · exact ⟨true, by rw [hgrow, if_neg hzero]; rfl⟩
  · rw [if_neg (by omega), if_neg (by omega)]
    exact ⟨true, rfl⟩
  · obtain ⟨m, rfl⟩ : ∃ m : ℕ, k = m := ⟨k.toNat, by omega⟩
    have hword : ((m : ℤ) % 2 ^ 32).toNat = m := by omega
    have hnew : (((sz : ℤ) + m) % 2 ^ 32).toNat = sz + m := by
      rw [KERNBASE] at hsz
      omega
    rw [if_pos hk, hword, hnew]
    by_cases hle : KERNBASE ≤ sz + m
    · rw [allocuvm, if_pos hle, Wp.bind_iff, Wp.pure_iff, if_pos rfl]
      exact ⟨true, by rw [growSize_of_pos hsz (by omega) (by omega), if_neg (by omega)]; rfl⟩
    · refine (h.allocuvm_spec (show sz < sz + m by omega)).bind fun r t hr => ?_
      rcases hr with ⟨rfl, -⟩ | ⟨rfl, -⟩
      · rw [if_neg (by omega)]
        exact ⟨true, by rw [growSize_of_pos hsz (by omega) (by omega), if_pos ⟨rfl, by omega⟩]; rfl⟩
      · rw [if_pos rfl]
        exact ⟨false, by rw [growSize_of_pos hsz (by omega) (by omega), if_neg (by simp)]; rfl⟩

theorem growproc_growSize_page : Wp (growproc smallImage 300 0 (4096 : Int32).toInt) smallMem
    (fun r _ => ∃ mem, growSize mem 0 ((4096 : Int32).toInt % 2 ^ 32).toNat =
      if r.1 = 0 then some r.2 else none) fun _ => False :=
  growproc_growSize smallMem_sized 4096

/-- The size of a process that had the size `sz₀` and was given the regions. -/
def procSize (sz₀ : ℕ) (regions : List (ℕ × ℕ)) : ℕ :=
  regions.foldl (fun sz r => (growSize true sz r.2).getD sz) sz₀

/-- `sbrk`: the old size, if the process can be given the new one. -/
def kernelSbrk (sz₀ : ℕ) (mem : List (ℕ × ℕ) → ℕ → Bool) : Sbrk := fun regions n =>
  (growSize (mem regions n) (procSize sz₀ regions) n).map fun _ => procSize sz₀ regions

/-- The regions lie between the first size of the process and its size now. -/
structure Grown (sz₀ : ℕ) (regions : List (ℕ × ℕ)) : Prop where
  aligned : HEADER ∣ procSize sz₀ regions
  lo : sz₀ ≤ procSize sz₀ regions
  hi : procSize sz₀ regions ≤ KERNBASE
  inside : ∀ r ∈ regions, sz₀ ≤ r.1 ∧ r.1 + r.2 ≤ procSize sz₀ regions

namespace Grown

variable {sz₀ : ℕ} {regions : List (ℕ × ℕ)} {mem : List (ℕ × ℕ) → ℕ → Bool} {n p : ℕ}

theorem kernelSbrk_eq_some (h : Grown sz₀ regions) (hn : 0 < n) (hn' : n < 2 ^ 31)
    (hcall : kernelSbrk sz₀ mem regions n = some p) :
    p = procSize sz₀ regions ∧ procSize sz₀ regions + n < KERNBASE ∧
      procSize sz₀ (regions ++ [(p, n)]) = procSize sz₀ regions + n := by
  rw [kernelSbrk, growSize_of_pos h.hi hn hn', Option.map_eq_some_iff] at hcall
  obtain ⟨sz, hsz, rfl⟩ := hcall
  split_ifs at hsz with hcond
  refine ⟨rfl, hcond.2, ?_⟩
  rw [procSize, List.foldl_append, List.foldl_cons, List.foldl_nil]
  change (growSize true (procSize sz₀ regions) n).getD _ = _
  rw [growSize_of_pos h.hi hn hn', if_pos ⟨rfl, hcond.2⟩, Option.getD_some]

/-- The next region begins where the process ended. -/
theorem goodRegion (h : Grown sz₀ regions) {base : ℕ} (hlo : base + HEADER ≤ sz₀) (hn : 0 < n)
    (hn' : n < 2 ^ 31) (hcall : kernelSbrk sz₀ mem regions n = some p) :
    GoodRegion base regions p n := by
  obtain ⟨rfl, hlt, -⟩ := h.kernelSbrk_eq_some hn hn' hcall
  have hsz := h.lo
  rw [KERNBASE] at hlt
  exact ⟨h.aligned, by omega, by omega, fun r hr => .inr (h.inside r hr).2⟩

theorem append (h : Grown sz₀ regions) (hn : 0 < n) (hn' : n < 2 ^ 31) (hdvd : HEADER ∣ n)
    (hcall : kernelSbrk sz₀ mem regions n = some p) : Grown sz₀ (regions ++ [(p, n)]) := by
  obtain ⟨rfl, hlt, hsize⟩ := h.kernelSbrk_eq_some hn hn' hcall
  have hsz := h.lo
  refine ⟨?_, ?_, ?_, fun r hr => ?_⟩
  · rw [hsize]
    exact Nat.dvd_add h.aligned hdvd
  · omega
  · omega
  · rw [hsize]
    rcases List.mem_append.mp hr with hr | hr
    · have := h.inside r hr
      omega
    · rw [List.mem_singleton.mp hr]
      exact ⟨hsz, le_rfl⟩

end Grown

/-- The bytes for a request that does not overflow are a positive `int`. -/
theorem request_spec {nbytes : ℕ} (h : nbytes ≤ 2 ^ 31 - 16) :
    0 < request (units nbytes) ∧ request (units nbytes) < 2 ^ 31 ∧
      HEADER ∣ request (units nbytes) := by
  obtain ⟨-, hlt, -⟩ := units_spec h
  obtain ⟨n, hn⟩ : ∃ n, n = if units nbytes < 4096 then 4096 else units nbytes := ⟨_, rfl⟩
  have hbounds : 0 < n ∧ n < 2 ^ 28 := by
    rw [hn]
    split_ifs <;> omega
  have hrequest : request (units nbytes) = HEADER * n := by
    rw [request, ← hn, HEADER]
    omega
  rw [hrequest]
  refine ⟨Nat.mul_pos (by decide) hbounds.1, ?_, Nat.dvd_mul_right ..⟩
  rw [HEADER]
  omega

namespace Sys

/-- What a program may do with the kernel's `sbrk`: a request is one whose bytes are a positive
`int`. -/
def Fits (base sz₀ : ℕ) (s : Sys) : Action → Prop
  | .malloc sbrk nbytes => nbytes ≤ 2 ^ 31 - 16 ∧ ∃ mem, sbrk = kernelSbrk sz₀ mem
  | a => s.Allowed base a

/-- A program on the kernel's `sbrk`: its heap is as it should be, and inside the process. -/
structure Hosted (base sz₀ : ℕ) (s : Sys) : Prop where
  inv : Inv base ⟨s.heap.start base, s.live⟩
  fresh : s.heap.freep = 0 → s.live = []
  grown : Grown sz₀ s.heap.regions

variable {base sz₀ : ℕ} {s t : Sys}

/-- `malloc` of a size that does not overflow. -/
theorem Hosted.malloc (h : s.Hosted base sz₀) (hbase : 0 < base) (hlo : base + HEADER ≤ sz₀)
    (mem : List (ℕ × ℕ) → ℕ → Bool) {nbytes : ℕ} (hnbytes : nbytes ≤ 2 ^ 31 - 16) :
    ∃ r t, Umalloc.malloc base (kernelSbrk sz₀ mem) s.heap nbytes = some (r, t) ∧
      Inv base ⟨t, if r = 0 then s.live else (r - HEADER, nbytes) :: s.live⟩ ∧
      (r = 0 → t = s.heap.start base) ∧ Grown sz₀ t.regions ∧
      procSize sz₀ s.heap.regions ≤ procSize sz₀ t.regions := by
  obtain ⟨hpos, hlt, hdvd⟩ := request_spec hnbytes
  obtain ⟨r, t, hres, hinv, hzero, hregions⟩ := malloc_spec hbase hnbytes
    (fun p hp => h.grown.goodRegion hlo hpos hlt hp) h.inv
  refine ⟨r, t, hres, hinv, hzero, ?_⟩
  rcases hregions with hregions | ⟨p, hcall, hregions⟩
  · rw [hregions]
    exact ⟨h.grown, le_rfl⟩
  · rw [hregions, (h.grown.kernelSbrk_eq_some hpos hlt hcall).2.2]
    exact ⟨h.grown.append hpos hlt hdvd hcall, Nat.le_add_right ..⟩

theorem Inv.hosted (h : s.Inv base) (hbase : 0 < base) (hgrown : Grown sz₀ s.heap.regions) :
    s.Hosted base sz₀ := by
  refine ⟨by rwa [h.start hbase], fun hzero => ?_, hgrown⟩
  obtain ⟨⟨N, hN⟩, -⟩ := h
  have := hN.list.base_le hN.freep
  omega

/-- A program that holds a block has called `malloc`. -/
theorem Hosted.inv_of_mem (h : s.Hosted base sz₀) {b : ℕ × ℕ} (hb : b ∈ s.live) : s.Inv base := by
  have hne : s.heap.freep ≠ 0 := fun hzero => by
    rw [h.fresh hzero] at hb
    cases hb
  have hstart : s.heap.start base = s.heap := by rw [Heap.start, if_neg hne]
  have := h.inv
  rwa [hstart] at this

theorem Hosted.step (h : s.Hosted base sz₀) (hbase : 0 < base) (hlo : base + HEADER ≤ sz₀)
    {a : Action} (hfits : s.Fits base sz₀ a) (hnext : s.next base a = some t) :
    t.Hosted base sz₀ := by
  cases a with
  | malloc sbrk nbytes =>
    obtain ⟨hnbytes, mem, rfl⟩ := hfits
    obtain ⟨r, u, hres, hinv, -, hgrown, -⟩ := h.malloc hbase hlo mem hnbytes
    rw [next, hres, Option.map_some] at hnext
    obtain rfl := Option.some.inj hnext
    exact hinv.hosted hbase hgrown
  | free ap =>
    have hallowed : s.Allowed base (.free ap) := hfits
    obtain ⟨b, hb, -⟩ := hfits
    obtain ⟨u, hu, hinv⟩ := (h.inv_of_mem hb).free hallowed
    obtain rfl := Option.some.inj (hnext.symm.trans hu)
    obtain ⟨heap, hheap, rfl⟩ := Option.map_eq_some_iff.mp hnext
    exact hinv.hosted hbase (by rw [Heap.free_regions hheap]; exact h.grown)
  | store a ptr size =>
    have hallowed : s.Allowed base (.store a ptr size) := hfits
    obtain ⟨b, hb, -⟩ := hfits
    obtain ⟨u, hu, hinv⟩ := (h.inv_of_mem hb).store hallowed
    obtain rfl := Option.some.inj (hnext.symm.trans hu)
    obtain rfl := Option.some.inj hnext
    exact hinv.hosted hbase h.grown

theorem hosted_init (hdvd : HEADER ∣ sz₀) (hhi : sz₀ ≤ KERNBASE) (ptr size : ℕ → ℕ) :
    (init ptr size).Hosted base sz₀ :=
  ⟨inv_start ptr size, fun _ => rfl, hdvd, le_rfl, hhi, by simp [init]⟩

/-- A block in use lies inside the process, and the bytes asked for lie inside the block. -/
theorem Inv.inside (h : s.Inv base) (hgrown : Grown sz₀ s.heap.regions) {b : ℕ × ℕ}
    (hb : b ∈ s.live) :
    sz₀ ≤ b.1 ∧ b.1 + HEADER + b.2 ≤ s.heap.after b.1 ∧
      s.heap.after b.1 ≤ procSize sz₀ s.heap.regions := by
  obtain ⟨⟨N, hN⟩, hlarge⟩ := h
  have hmem : b.1 ∈ s.live.map Prod.fst := List.mem_map_of_mem hb
  have hpos := hN.live_pos b.1 hmem
  have hcover : ∀ x, b.1 ≤ x → x < s.heap.after b.1 →
      sz₀ ≤ x ∧ x < procSize sz₀ s.heap.regions := by
    intro x hx hx'
    have h₁ := cover_blocks_pos hmem hx hx'
    have h₂ := hN.covers x
    obtain ⟨r, hr, hle, hlt⟩ := exists_of_cover_pos (show 0 < cover s.heap.regions x by omega)
    have := hgrown.inside r hr
    omega
  have hafter : b.1 < s.heap.after b.1 := by
    rw [Heap.after, HEADER]
    omega
  -- the first and the last byte of the block are in regions
  have hfirst := hcover b.1 le_rfl hafter
  have hlast := hcover (s.heap.after b.1 - 1) (by omega) (by omega)
  have hbytes := hlarge b hb
  refine ⟨hfirst.1, ?_, by omega⟩
  rw [Heap.after]
  omega

end Sys

/-- After any calls whose sizes do not overflow, `malloc` of such a size never gives less than was
asked for: the bytes lie inside the heap of the process and beside every other block. The process
has not shrunk, and without memory nothing has changed. -/
theorem malloc_inside {base sz₀ : ℕ} (hbase : 0 < base) (hlo : base + HEADER ≤ sz₀)
    (hdvd : HEADER ∣ sz₀) (hhi : sz₀ ≤ KERNBASE) {ptr size : ℕ → ℕ} {labels : List Action} {s : Sys}
    (hrun : Run (Guarded (fun s a t => s.next base a = some t) (Sys.Fits base sz₀))
      (Sys.init ptr size) labels s)
    (mem : List (ℕ × ℕ) → ℕ → Bool) {nbytes : ℕ} (hnbytes : nbytes ≤ 2 ^ 31 - 16) :
    ∃ r t, malloc base (kernelSbrk sz₀ mem) s.heap nbytes = some (r, t) ∧
      procSize sz₀ s.heap.regions ≤ procSize sz₀ t.regions ∧
      (∃ N, Sys.Integrity base ⟨t, if r = 0 then s.live else (r - HEADER, nbytes) :: s.live⟩ N) ∧
      (r = 0 → t = s.heap.start base) ∧
      (r ≠ 0 → sz₀ + HEADER ≤ r ∧ r + nbytes ≤ procSize sz₀ t.regions ∧
        ∀ b ∈ s.live, r + nbytes ≤ b.1 ∨ b.1 + HEADER + b.2 + HEADER ≤ r) := by
  have hosted : s.Hosted base sz₀ := hrun.invariant_of_guard (Sys.hosted_init hdvd hhi ptr size)
    fun _ _ _ h hfits hnext => h.step hbase hlo hfits hnext
  obtain ⟨r, t, hres, hinv, hzero, hgrown, hsize⟩ := hosted.malloc hbase hlo mem hnbytes
  refine ⟨r, t, hres, hsize, hinv.integrity, hzero, fun hr => ?_⟩
  rw [if_neg hr] at hinv
  obtain ⟨hstart, hbytes, hend⟩ := hinv.inside hgrown List.mem_cons_self
  dsimp only at hstart hbytes hend
  obtain ⟨q, rfl⟩ : ∃ q, r = q + HEADER := ⟨r - HEADER, by omega⟩
  rw [Nat.add_sub_cancel] at hstart hbytes hend
  refine ⟨by omega, by omega, fun b hb => ?_⟩
  have hbytes' := (hinv.inside hgrown (List.mem_cons_of_mem _ hb)).2.1
  have hbeside := (List.pairwise_cons.mp hinv.live_beside).1 b hb
  dsimp only at hbytes' hbeside
  rw [Nat.add_sub_cancel] at hbeside
  omega

/-- A process of one page asks for 10 bytes and for 100, frees the first block and asks for 32
bytes. -/
theorem malloc_inside_after_free :
    ∃ (labels : List Action) (s : Sys),
      Run (Guarded (fun s a t => s.next 64 a = some t) (Sys.Fits 64 4096))
      (Sys.init id id) labels s ∧
      s.live = [(36728, 100)] ∧
      ∃ r t, malloc 64 (kernelSbrk 4096 fun _ _ => true) s.heap 32 = some (r, t) ∧ r ≠ 0 ∧
        4096 + HEADER ≤ r ∧ r + 32 ≤ procSize 4096 t.regions ∧
        (r + 32 ≤ 36728 ∨ 36728 + HEADER + 100 + HEADER ≤ r) := by
  set sbrk : Sbrk := kernelSbrk 4096 fun _ _ => true
  have heval : (((Sys.init id id).next 64 (.malloc sbrk 10)).bind fun s₁ =>
      (s₁.next 64 (.malloc sbrk 100)).bind fun s₂ => (s₂.next 64 (.free 36848)).bind fun s₃ =>
        (malloc 64 sbrk s₃.heap 32).map fun x => (s₂.live, s₃.live, decide (x.1 = 0))) =
      some ([(36728, 100), (36840, 10)], [(36728, 100)], false) := by decide +kernel
  obtain ⟨s₁, h₁, heval⟩ := Option.bind_eq_some_iff.mp heval
  obtain ⟨s₂, h₂, heval⟩ := Option.bind_eq_some_iff.mp heval
  obtain ⟨s₃, h₃, heval⟩ := Option.bind_eq_some_iff.mp heval
  obtain ⟨x, hx, heval⟩ := Option.map_eq_some_iff.mp heval
  simp only [Prod.mk.injEq, decide_eq_false_iff_not] at heval
  obtain ⟨hlive₂, hlive₃, hne⟩ := heval
  have hfree : s₂.Fits 64 4096 (.free 36848) := by
    refine ⟨(36840, 10), ?_, rfl⟩
    rw [hlive₂]
    simp
  have hrun : Run (Guarded (fun s a t => s.next 64 a = some t) (Sys.Fits 64 4096)) (Sys.init id id)
      [.malloc sbrk 10, .malloc sbrk 100, .free 36848] s₃ :=
    .snoc (.snoc (.single ⟨⟨by decide, _, rfl⟩, h₁⟩) ⟨⟨by decide, _, rfl⟩, h₂⟩) ⟨hfree, h₃⟩
  obtain ⟨r, t, hres, -, -, -, hblock⟩ := @malloc_inside 64 4096 (by decide) (by decide) (by decide)
    (by decide) id id _ s₃ hrun (fun _ _ => true) 32 (by decide)
  obtain rfl := Option.some.inj (hres.symm.trans hx)
  obtain ⟨hlo, hhi, hbeside⟩ := hblock hne
  exact ⟨_, s₃, hrun, hlive₃, r, t, hres, hne, hlo, hhi, hbeside (36728, 100)
    (by rw [hlive₃]; simp)⟩

/-- For the largest size the rounding wraps around to one unit: `malloc` returns the end of the
process, with no byte behind it. -/
theorem malloc_wraps :
    ∃ t, malloc 64 (kernelSbrk 4096 fun _ _ => true) (Sys.init id id).heap (2 ^ 32 - 1) =
        some (36864, t) ∧ procSize 4096 t.regions = 36864 := by
  have heval : (malloc 64 (kernelSbrk 4096 fun _ _ => true) (Sys.init id id).heap (2 ^ 32 - 1)).map
      (fun x => (x.1, procSize 4096 x.2.regions)) = some (36864, 36864) := by decide +kernel
  obtain ⟨⟨r, t⟩, hres, heq⟩ := Option.map_eq_some_iff.mp heval
  obtain ⟨rfl, hsize⟩ := Prod.mk.inj heq
  exact ⟨t, hres, hsize⟩

end Xv6.Umalloc
