import Xv6.Vm.Exec

/-!
# The image and its arguments

`exec` copies the arguments to the top of the stack, each below the last
(`pushArgs_stacked`), and then the array of their addresses. Whatever the file
holds, the image is an address space (`buildImage_holds`); when nothing fails, it
is that of the program, with its arguments (`buildImage_started`).
-/

namespace Xv6.Vm

open Framework List Option

variable {L : Layout} {k k' : Kmem} {l l' A : List Nat} {m m' : Bytes} {n v a : Nat} {P : Pte → Prop} {s : List Byte}
  {U : Finset Nat} {fixed : Nat → Option Nat} {T : Multiset Nat} {ip : Program} {lo hi sp' sz sp : Nat}
  {bs : List (Nat × List Byte)} {strs : List (List Byte)}

/-! ## Strings and words -/

/-- The string `s` at the address `a`, shorter than a page. -/
structure IsStr (m : Bytes) (a : Nat) (s : List Byte) : Prop where
  bytes : ∀ i ≤ s.length, (s ++ [0])[i]? = some (m (a + i))
  zero : 0 ∉ s
  lt : s.length < 4096

theorem strlen_eq {c : Nat} (hs : ∀ i ≤ s.length, (s ++ [0])[i]? = some (m (a + i))) (hz : 0 ∉ s) (hc : s.length < c) :
    strlen m a c = s.length := by
  induction s generalizing a c with
  | nil =>
    obtain ⟨c, rfl⟩ := Nat.exists_eq_succ_of_ne_zero (Nat.ne_of_gt hc)
    have hb : m a = 0 := (some.inj (hs 0 (le_refl 0))).symm
    rw [strlen, if_pos hb, length_nil]
  | cons b s ih =>
    obtain ⟨c, rfl⟩ := Nat.exists_eq_succ_of_ne_zero (Nat.ne_of_gt (Nat.zero_lt_of_lt hc))
    have hb : m a = b := (some.inj (hs 0 (Nat.zero_le _))).symm
    rw [strlen, if_neg (fun h => hz (by rw [← h, hb]; exact mem_cons_self)), ih (fun i hi => ?_)
      (fun h => hz (mem_cons_of_mem b h)) (by simp only [length_cons] at hc; omega), length_cons]
    rw [Nat.add_right_comm, Nat.add_assoc]
    exact hs (i + 1) (by simp only [length_cons]; omega)

theorem IsStr.strlen (h : IsStr m a s) : Vm.strlen m a PGSIZE = s.length := strlen_eq h.bytes h.zero h.lt

/-- A string in a page that does not change. -/
theorem IsStr.frame {g : Nat} (h : IsStr m (4096 * g) s) (hf : Frame T m m') (hg : g ∉ T) : IsStr m' (4096 * g) s := by
  refine ⟨fun i hi => ?_, h.zero, h.lt⟩
  have := h.lt
  rw [h.bytes i hi, hf _ (by rwa [show (4096 * g + i) / 4096 = g by omega])]

/-- The strings `strs` at the start of the pages `A`. -/
def Strings (m : Bytes) (A : List Nat) (strs : List (List Byte)) : Prop :=
  List.Forall₂ (fun g s => IsStr m (4096 * g) s) A strs

theorem Strings.frame (h : Strings m A strs) (hf : Frame T m m') (hA : ∀ g ∈ A, g ∉ T) : Strings m' A strs :=
  ((forall₂_and_left A strs).mpr ⟨hA, h⟩).imp fun _ _ hs => hs.2.frame hf hs.1

/-- The bytes of a `uint64`. -/
def wordBytes (w : Nat) : List Byte := (range 8).map fun i => BitVec.ofNat 8 (w / 256 ^ i)

theorem length_wordBytes (w : Nat) : (wordBytes w).length = 8 := rfl

theorem length_flatMap_wordBytes (ws : List Nat) : (ws.flatMap wordBytes).length = ws.length * 8 := by
  induction ws with
  | nil => rfl
  | cons w ws ih =>
    rw [flatMap_cons, length_append, length_wordBytes, ih, length_cons]
    omega

theorem getElem?_flatMap_wordBytes {ws : List Nat} {i : Nat} (hi : i < ws.length * 8) :
    (ws.flatMap wordBytes)[i]? = some (ofWords ws i) := by
  induction ws generalizing i with
  | nil => exact absurd hi (by simp)
  | cons w ws ih =>
    rw [length_cons] at hi
    rw [flatMap_cons]
    by_cases h8 : i < 8
    · rw [List.getElem?_append_left h8, wordBytes, List.getElem?_map, List.getElem?_range h8, map_some, ofWords,
        Nat.div_eq_of_lt h8, Nat.mod_eq_of_lt h8]
      rfl
    · rw [List.getElem?_append_right (Nat.not_lt.mp h8), length_wordBytes, ih (by omega), ofWords, ofWords,
        show i / 8 = (i - 8) / 8 + 1 by omega, show i % 8 = (i - 8) % 8 by omega]
      rfl

/-! ## The stack -/

/-- The blocks `bs`, each below the last, lie between `lo` and `hi`, and the user reads
their bytes there. -/
structure Stacked (m : Bytes) (n lo hi : Nat) (bs : List (Nat × List Byte)) : Prop where
  within : ∀ b ∈ bs, lo ≤ b.1 ∧ b.1 + b.2.length ≤ hi
  align : ∀ b ∈ bs, b.1 % 16 = 0
  reads : ∀ b ∈ bs, Reads m n b.1 b.2
  apart : bs.Pairwise fun b c => c.1 + c.2.length ≤ b.1

theorem Stacked.nil : Stacked m n lo hi [] := ⟨nofun, nofun, nofun, .nil⟩

/-- What is below the blocks, and the memory there, may change. -/
theorem Stacked.keep {lo' : Nat} (h : Stacked m n lo hi bs) (hlo : lo' ≤ lo)
    (hm : ∀ x, lo ≤ x → ubyte m' n x = ubyte m n x) : Stacked m' n lo' hi bs := by
  refine ⟨fun b hb => ⟨hlo.trans (h.within b hb).1, (h.within b hb).2⟩, h.align, fun b hb i hi => ?_, h.apart⟩
  have := (h.within b hb).1
  rw [h.reads b hb i hi, hm _ (by omega)]

/-- A block above the others. -/
theorem Stacked.cons (h : Stacked m n lo a bs) (hlo : lo ≤ a) (ha : a % 16 = 0) (hhi : a + s.length ≤ hi)
    (hs : Reads m n a s) : Stacked m n lo hi ((a, s) :: bs) := by
  refine ⟨fun b hb => ?_, fun b hb => ?_, fun b hb => ?_, pairwise_cons.mpr ⟨fun c hc => (h.within c hc).2, h.apart⟩⟩ <;>
    rcases mem_cons.mp hb with rfl | hb
  · exact ⟨hlo, hhi⟩
  · have := h.within b hb
    exact ⟨this.1, by omega⟩
  · exact ha
  · exact h.align b hb
  · exact hs
  · exact h.reads b hb

/-- A block below the others. -/
theorem Stacked.concat (h : Stacked m n lo hi bs) (ha : a % 16 = 0) (hlo : a + s.length ≤ lo) (hle : lo ≤ hi)
    (hs : Reads m n a s) : Stacked m n a hi (bs ++ [(a, s)]) := by
  refine ⟨fun b hb => ?_, fun b hb => ?_, fun b hb => ?_, pairwise_append.mpr ⟨h.apart, pairwise_singleton _ _, ?_⟩⟩
  · rcases mem_append.mp hb with hb | hb
    · have := h.within b hb
      exact ⟨by omega, this.2⟩
    · rw [mem_singleton.mp hb]
      exact ⟨le_refl a, hlo.trans hle⟩
  · rcases mem_append.mp hb with hb | hb
    · exact h.align b hb
    · rw [mem_singleton.mp hb]
      exact ha
  · rcases mem_append.mp hb with hb | hb
    · exact h.reads b hb
    · rw [mem_singleton.mp hb]
      exact hs
  · intro b hb c hc
    rw [mem_singleton.mp hc]
    exact hlo.trans (h.within b hb).1

/-- What `copyout` has written is read. -/
theorem Wrote.reads {src : Bytes} (hm : Clean m n) (h : Wrote m n a src 0 s.length m')
    (hs : ∀ i < s.length, s[i]? = some (src i)) : Reads m' n a s := fun i hi => by
  rw [h.ubyte hm, if_pos (by omega), hs i hi, Nat.zero_add, Nat.add_sub_cancel_left]

theorem pushArgs_holds (h : Holds k l n P U fixed T) (hT : T ≤ L.frames.val) (stackbase sp : Nat)
    (argv ustack : List Nat) :
    let k' := (pushArgs (4096 * n) stackbase argv k sp ustack).2.1
    Frame T k.mem k'.mem ∧ Holds k' l n P U fixed T := by
  induction argv generalizing k sp ustack with
  | nil => exact ⟨Frame.rfl', h⟩
  | cons s argv ih =>
    simp only [pushArgs]
    split
    · exact ⟨Frame.rfl', h⟩
    split
    · exact ⟨Frame.rfl', h⟩
    obtain ⟨hf, h'⟩ := h.copyout hT ((sp - (strlen k.mem s PGSIZE + 1)) - (sp - (strlen k.mem s PGSIZE + 1)) % 16)
      (fun i => k.mem (s + i)) (strlen k.mem s PGSIZE + 1)
    split
    · obtain ⟨hf', h''⟩ := ih h' _ _
      exact ⟨hf.trans hf', h''⟩
    · exact ⟨hf, h'⟩

/-- The room that a string takes on the stack. -/
def strRoom (s : List Byte) : Nat := (s.length + 16) / 16 * 16

/-- The room that the arguments take on the stack, with the array of their addresses. -/
def room (strs : List (List Byte)) : Nat := (strs.map strRoom).sum + (8 * (strs.length + 1) + 15) / 16 * 16

/-- The strings are stacked from `sp` down, and the rest of the memory is as it was. -/
theorem pushArgs_stacked {stackbase : Nat} {ustack ustack' : List Nat}
    (h : Holds k l n P U fixed T) (hT : T ≤ L.frames.val) (hbase : 0 < stackbase) (hsp : sp % 16 = 0)
    (hstr : Strings k.mem A strs) (hA : ∀ g ∈ A, g ∉ T)
    (hrun : pushArgs (4096 * n) stackbase (A.map (4096 * ·)) k sp ustack = (true, k', sp', ustack')) :
    ∃ ads, ustack' = ustack ++ ads ∧ ads.length = strs.length ∧ sp' + (strs.map strRoom).sum = sp ∧ sp' % 16 = 0 ∧
      Stacked k'.mem n sp' sp (ads.zip (strs.map (· ++ [0]))) ∧ userAddr k'.mem n = userAddr k.mem n ∧
      ∀ x, (x < sp' ∨ sp ≤ x) → ubyte k'.mem n x = ubyte k.mem n x := by
  induction A generalizing k sp ustack strs with
  | nil =>
    cases hstr
    cases hrun
    exact ⟨[], (append_nil _).symm, rfl, rfl, hsp, .nil, rfl, fun _ _ => rfl⟩
  | cons g A ih =>
    obtain ⟨s, strs, hs, htail, rfl⟩ := forall₂_cons_left_iff.mp hstr
    simp only [map_cons, pushArgs, hs.strlen] at hrun
    split at hrun
    · cases hrun
    split at hrun
    · cases hrun
    rename_i hlow
    generalize ha : sp - (s.length + 1) - (sp - (s.length + 1)) % 16 = a at hrun hlow
    have hroom : a + strRoom s = sp := by
      rw [strRoom]
      omega
    obtain ⟨hf, h1⟩ := h.copyout hT a (fun i => k.mem (4096 * g + i)) (s.length + 1)
    obtain ⟨ok, k1, j, hk1, -, -, hw, -, hj⟩ := copyout_wrote (h.clean hT) a (fun i => k.mem (4096 * g + i)) (s.length + 1)
    rw [hk1] at hrun hf h1
    cases ok with
    | false => cases hrun
    | true =>
      rw [hj rfl] at hw
      have hA1 : ∀ g ∈ A, g ∉ T := fun g hg => hA g (mem_cons_of_mem _ hg)
      obtain ⟨ads, rfl, hlen, hsum, hsp', hst, hua, hrest⟩ := ih h1 (by omega) (Strings.frame htail hf hA1) hA1 hrun
      have hread : Reads k1.mem n a (s ++ [0]) := Wrote.reads (h.clean hT) (by rw [length_append]; exact hw)
        fun i hi => hs.bytes i (by rw [length_append, length_singleton] at hi; omega)
      refine ⟨a :: ads, by rw [append_assoc, singleton_append], by rw [length_cons, length_cons, hlen],
        by rw [map_cons, sum_cons]; omega, hsp', ?_, hua.trans (hw.userAddr (h.clean hT)), fun x hx => ?_⟩
      · rw [map_cons, zip_cons_cons]
        refine hst.cons (by omega) (by omega) ?_ fun i hi => ?_
        · rw [length_append, length_singleton]
          omega
        · rw [hread i hi, hrest _ (by omega)]
      · rw [hrest x (by omega), hw.ubyte (h.clean hT), if_neg (by omega)]

/-- The last part of `exec` on the stack: the array of the addresses. -/
theorem Stacked.vector {len : Nat} {ads : List Nat} (hm : Clean m n) (h : Stacked m n sp sz bs) (hle : sp ≤ sz)
    (hlen : (ads.length + 1) * 8 = len) (hsp : sp - len - (sp - len) % 16 = sp') (hpos : 0 < sp')
    (hw : Wrote m n sp' (ofWords (ads ++ [0])) 0 len m') :
    Stacked m' n sp' sz (bs ++ [(sp', (ads ++ [0]).flatMap wordBytes)]) := by
  have hwords : (ads ++ [0]).length = ads.length + 1 := length_append
  have hbytes : ((ads ++ [0]).flatMap wordBytes).length = len := by rw [length_flatMap_wordBytes, hwords, hlen]
  have hread : Reads m' n sp' ((ads ++ [0]).flatMap wordBytes) := Wrote.reads hm (by rwa [hbytes]) fun i hi =>
    getElem?_flatMap_wordBytes (by rwa [length_flatMap_wordBytes] at hi)
  refine (h.keep (le_refl sp) fun x hx => ?_).concat (by omega) (by rw [hbytes]; omega) hle hread
  rw [hw.ubyte hm, if_neg (by omega)]

/-- `exec` from its arguments on, for a stack that ends at `sz`. -/
def pushStack (argv : List Nat) (k : Kmem) (pagetable sz : Nat) : Kmem × Option (Nat × Nat) :=
  let (ok, k, sp, ustack) := pushArgs pagetable (sz - PGSIZE) argv k sz []
  if ok then
    let len := (ustack.length + 1) * 8
    let sp := (sp - len) - (sp - len) % 16
    if sp < sz - PGSIZE then (k, none)
    else
      let (ok, k) := copyout k pagetable sp (ofWords (ustack ++ [0])) len
      if ok then (k, some (ustack.length, sp)) else (k, none)
  else (k, none)

theorem pushStack_holds (argv : List Nat) (sz : Nat) (h : Holds k l n P U fixed T) (hT : T ≤ L.frames.val) (hsz : 4096 < sz)
    (hsz' : sz % 16 = 0) :
    ∃ k' out, pushStack argv k (4096 * n) sz = (k', out) ∧ Frame T k.mem k'.mem ∧ Holds k' l n P U fixed T ∧
      ∀ argc sp A strs, out = some (argc, sp) → argv = A.map (4096 * ·) → Strings k.mem A strs → (∀ g ∈ A, g ∉ T) →
        argc = strs.length ∧ sz - 4096 ≤ sp ∧ sp + room strs = sz ∧
        (∃ ads, ads.length = strs.length ∧
          Stacked k'.mem n sp sz (ads.zip (strs.map (· ++ [0])) ++ [(sp, (ads ++ [0]).flatMap wordBytes)])) ∧
        userAddr k'.mem n = userAddr k.mem n ∧ ∀ x < sp, ubyte k'.mem n x = ubyte k.mem n x := by
  obtain ⟨hf1, h1⟩ := pushArgs_holds h hT (sz - PGSIZE) sz argv []
  rw [pushStack]
  rcases hr : pushArgs (4096 * n) (sz - PGSIZE) argv k sz [] with ⟨ok, k1, sp1, ustack⟩
  rw [hr] at hf1 h1
  cases ok with
  | false => exact ⟨k1, none, rfl, hf1, h1, nofun⟩
  | true =>
    simp only [if_true]
    generalize hlen : (ustack.length + 1) * 8 = len
    generalize hsp : sp1 - len - (sp1 - len) % 16 = sp
    split
    · exact ⟨k1, none, rfl, hf1, h1, nofun⟩
    rename_i hlow
    obtain ⟨hf2, h2⟩ := h1.copyout hT sp (ofWords (ustack ++ [0])) len
    obtain ⟨ok, k2, j, hk2, -, -, hw, -, hj⟩ := copyout_wrote (h1.clean hT) sp (ofWords (ustack ++ [0])) len
    rw [hk2] at hf2 h2 ⊢
    cases ok with
    | false => exact ⟨k2, none, rfl, hf1.trans hf2, h2, nofun⟩
    | true =>
      refine ⟨k2, _, rfl, hf1.trans hf2, h2, ?_⟩
      rintro argc sp A strs ⟨⟩ rfl hstr hA
      rw [hj rfl] at hw
      obtain ⟨_, rfl, hads, hsum, hsp1, hst, hua, hrest⟩ := pushArgs_stacked h hT (by simp only [PGSIZE]; omega) hsz' hstr hA hr
      simp only [PGSIZE] at hlow
      have hclean := h1.clean hT
      refine ⟨hads, Nat.not_lt.mp hlow, ?_, ⟨ustack, hads, ?_⟩, (hw.userAddr hclean).trans hua, fun x hx => ?_⟩
      · rw [hads] at hlen
        rw [room, ← hsum]
        omega
      · exact hst.vector hclean (by omega) hlen hsp (by omega) hw
      · rw [hw.ubyte hclean, if_neg (by omega), hrest x (by omega)]

/-! ## The image -/

/-- The memory of the program, as its segments say. -/
def Program.image (ip : Program) : Bytes := (ip.segments ip.phnum (ip.phoff % 2 ^ 32)).foldl ip.load fun _ => 0

/-- The memory a program starts with: its image, a page that the user cannot reach, and
a stack with the strings `strs` and the array of their addresses at `sp`. -/
structure Started (m : Bytes) (n sz : Nat) (ip : Program) (strs : List (List Byte)) (argc sp : Nat) : Prop where
  size : 8192 ≤ sz ∧ sz % 4096 = 0
  image : ∀ x < sz - 8192, ubyte m n x = some (ip.image x)
  guard : ∀ x, sz - 8192 ≤ x → x < sz - 4096 → userAddr m n x = none
  count : argc = strs.length
  base : sz - 4096 ≤ sp
  fits : sp + room strs = sz
  args : ∃ ads, ads.length = strs.length ∧
    Stacked m n sp sz (ads.zip (strs.map (· ++ [0])) ++ [(sp, (ads ++ [0]).flatMap wordBytes)])

theorem Stacked.of_keeps (h : Stacked m n lo hi bs) (hlt : ∀ x < hi, x / 4096 < VPAGES ∧ x / 4096 ∈ U)
    (hk : Keeps n U ∅ m m') : Stacked m' n lo hi bs := by
  refine ⟨h.within, h.align, fun b hb i hi => ?_, h.apart⟩
  have hx := hlt (b.1 + i) (by have := (h.within b hb).2; omega)
  rw [h.reads b hb i hi, hk.ubyte hx.1 hx.2 (Finset.notMem_empty _)]

/-- What keeps the space keeps the program. -/
theorem Started.of_keeps {argc : Nat} (h : Started m n sz ip strs argc sp)
    (hlt : ∀ v < npages sz, v < 2 ^ 26) (hk : Keeps n (Finset.range (npages sz)) ∅ m m') :
    Started m' n sz ip strs argc sp := by
  have hin : ∀ x < sz, x / 4096 < VPAGES ∧ x / 4096 ∈ Finset.range (npages sz) := fun x hx => by
    have hv : x / 4096 < npages sz := by simp only [npages]; omega
    exact ⟨Nat.lt_trans (hlt _ hv) (by decide), Finset.mem_range.mpr hv⟩
  obtain ⟨ads, hads, hst⟩ := h.args
  refine ⟨h.size, fun x hx => ?_, fun x hx hx' => ?_, h.count, h.base, h.fits, ads, hads, hst.of_keeps hin hk⟩
  · obtain ⟨hVP, hU⟩ := hin x (by omega)
    rw [hk.ubyte hVP hU (Finset.notMem_empty _), h.image x hx]
  · rw [hk.userAddr_eq, h.guard x hx hx']

/-- `exec` from the end of its segments on, at `sz`. -/
def buildStack (L : Layout) (argv : List Nat) (k : Kmem) (pagetable sz : Nat) : Option (Kmem × Nat × Option (Nat × Nat)) := do
  let sz := pgroundup sz
  let (sz1, k) ← uvmalloc L k pagetable sz (sz + 2 * PGSIZE)
  if sz1 = 0 then some (k, sz, none)
  else
    let k ← uvmclear k pagetable (sz1 - 2 * PGSIZE)
    let (k, out) := pushStack argv k pagetable sz1
    some (k, sz1, out)

theorem buildImage_eq (ip : Program) (argv : List Nat) (k : Kmem) (pagetable : Nat) :
    buildImage L ip argv k pagetable =
      (loadSegments L ip pagetable ip.phnum k (ip.phoff % 2 ^ 32) 0).bind fun r =>
        if r.1 then buildStack L argv r.2.1 pagetable r.2.2 else some (r.2.1, r.2.2, none) := by
  simp only [buildImage, buildStack, bind_eq_bind]
  refine bind_congr fun ⟨ok, k, sz⟩ _ => ?_
  cases ok with
  | false => simp only [Bool.false_eq_true, if_false]
  | true =>
    simp only [if_true]
    refine bind_congr fun ⟨sz1, k⟩ _ => ?_
    simp only
    split
    · rfl
    refine Option.bind_congr fun k _ => ?_
    rw [pushStack]
    rcases pushArgs pagetable (sz1 - PGSIZE) argv k sz1 [] with ⟨ok, k, sp, ustack⟩
    cases ok with
    | false => rfl
    | true =>
      simp only [if_true]
      split
      · rfl
      · split <;> rfl

theorem buildStack_holds (ip : Program) (argv : List Nat) (h : Holds k l n ForUser (Finset.range (npages sz)) fixed T)
    (hT : T ≤ L.frames.val) (hfix : ∀ w < 2 ^ 26 - 2, fixed w = none) :
    ∃ k' l' sz' out, buildStack L argv k (4096 * n) sz = some (k', sz', out) ∧ Frame T k.mem k'.mem ∧
      Holds k' l' n (fun _ => True) (Finset.range (npages sz')) fixed T ∧
      ∀ argc sp A strs, out = some (argc, sp) → argv = A.map (4096 * ·) → Strings k.mem A strs → (∀ g ∈ A, g ∉ T) →
        ImageAt k.mem n (npages sz) ip.image → Started k'.mem n sz' ip strs argc sp := by
  have hup : npages (pgroundup sz) = npages sz := by rw [pgroundup_eq, npages_mul]
  obtain ⟨r, k1, l1, hk1, hf1, hcase⟩ := uvmalloc_holds (pgroundup sz + 2 * PGSIZE)
    (by rw [hup]; exact h) hT hfix fun g => forUser_flags _
  simp only [buildStack, hk1, bind_eq_bind, bind_some]
  rcases hcase with ⟨rfl, h1, hkeep1, hfresh1⟩ | ⟨rfl, h1, -⟩
  swap
  · exact ⟨k1, l1, pgroundup sz, none, by rw [if_pos rfl], hf1, h1.mono, nofun⟩
  rw [Nat.max_eq_right (Nat.le_add_right _ _), pgroundup_eq] at h1 hkeep1 hfresh1 ⊢
  have htop : npages (4096 * npages sz + 2 * PGSIZE) = npages sz + 2 := by simp only [npages, PGSIZE]; omega
  rw [npages_mul, htop] at hkeep1 hfresh1
  rw [htop] at h1
  generalize npages sz = V at *
  rw [if_neg (by simp only [PGSIZE]; omega)]
  obtain ⟨k2, hk2, hf2, h2, hkeep2, hguard⟩ := uvmclear_holds (v := V) h1 hT (Finset.mem_range.mpr (by omega))
  rw [Nat.add_sub_cancel, hk2, bind_some]
  obtain ⟨k3, out, hk3, hf3, h3, hargs⟩ := pushStack_holds argv (4096 * V + 2 * PGSIZE) h2 hT (by simp only [PGSIZE]; omega)
    (by simp only [PGSIZE]; omega)
  rw [hk3]
  refine ⟨k3, l1, _, out, rfl, hf1.trans (hf2.trans hf3), by rwa [htop], fun argc sp A strs hout hargv hstr hA himage => ?_⟩
  obtain ⟨hargc, hbase, hfits, hstack, hua, hrest⟩ := hargs argc sp A strs hout hargv (hstr.frame (hf1.trans hf2) hA) hA
  have hlt : ∀ v < V + 2, v < 2 ^ 26 := fun v hv => h1.space.lt v (Finset.mem_range.mpr hv)
  have hgrown := himage.grow (by omega) hlt hkeep1 hfresh1
  refine ⟨by simp only [PGSIZE]; omega, fun x hx => ?_, fun x hx hx' => ?_, hargc, hbase, hfits, hstack⟩
  · have hx' := hlt (x / 4096) (by simp only [PGSIZE] at hx; omega)
    simp only [PGSIZE] at hx hbase
    rw [hrest x (by omega), hkeep2.ubyte (by simp only [VPAGES]; omega) (Finset.mem_range.mpr (by omega))
      (by rw [Finset.mem_singleton]; omega), hgrown.1 x (by omega)]
  · rw [hua]
    simp only [PGSIZE] at hx hx'
    exact if_neg fun hc => hc.2.2 (by rw [show x / 4096 = V by omega]; exact hguard)

/-- Whatever the file holds, the image is an address space of the size that
`exec` has computed when it fails or succeeds. When it succeeds, the program is ready
to start. -/
theorem buildImage_holds (ip : Program) (argv : List Nat) (h : Holds k l n ForUser ∅ fixed T) (hT : T ≤ L.frames.val)
    (hfix : ∀ w < 2 ^ 26 - 2, fixed w = none) :
    ∃ k' l' sz out, buildImage L ip argv k (4096 * n) = some (k', sz, out) ∧ Frame T k.mem k'.mem ∧
      Holds k' l' n (fun _ => True) (Finset.range (npages sz)) fixed T ∧
      ∀ argc sp A strs, out = some (argc, sp) → argv = A.map (4096 * ·) → Strings k.mem A strs → (∀ g ∈ A, g ∉ T) →
        Started k'.mem n sz ip strs argc sp := by
  obtain ⟨ok, k1, l1, sz, hk1, hf1, h1, himage⟩ := loadSegments_holds (c := ip.phnum) ip
    (ip.phoff % 2 ^ 32) (show Holds k l n ForUser (Finset.range (npages 0)) fixed T by simpa [npages] using h) hT hfix
  simp only [buildImage_eq, hk1, bind_some]
  cases ok with
  | false => exact ⟨k1, l1, sz, none, rfl, hf1, h1.mono, by simp⟩
  | true =>
    obtain ⟨k', l', sz', out, hk', hf', h', hstart⟩ := buildStack_holds ip argv h1 hT hfix
    refine ⟨k', l', sz', out, hk', hf1.trans hf', h', fun argc sp A strs hout hargv hstr hA => ?_⟩
    refine hstart argc sp A strs hout hargv (hstr.frame hf1 hA) hA (himage rfl _ ⟨fun x hx => ?_, fun _ _ => rfl⟩)
    exact absurd hx (by simp [npages])

end Xv6.Vm
