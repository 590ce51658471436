import Mathlib.Data.List.Sort
import Mathlib.Data.Nat.Bitwise
import Mathlib.Tactic.NormNum

namespace Hpcap.Pci

abbrev hpcapMaxNic : Nat := 16

/-- `struct pci_dev`. -/
structure PciDev where
  domain : Nat
  bus : UInt8
  devfn : UInt8
  deriving DecidableEq

def ixgbeBuildPciId (pdev : PciDev) : Nat := pdev.bus.toNat <<< 24 ||| pdev.devfn.toNat

/-- `hpcap_iface_pci_ids` is handed on as a list. -/
def hpcapSetFixedIface (ids : List Nat) (pdev : PciDev) (i : Nat) : List Nat :=
  ids.set i (ixgbeBuildPciId pdev)

/-- The inner loop, over the devices that `pci_get_device` finds for an entry of the table. -/
def foundLoop : List Nat × Nat → List PciDev → List Nat × Nat
  | s, [] => s
  | (ids, i), pdev :: rest => foundLoop (hpcapSetFixedIface ids pdev i, i + 1) rest

/-- The table is given by the devices that are found for each of its entries. -/
def hpcapFixIfaceNumbers (pciTbl : List (List PciDev)) : List Nat × Nat :=
  let (ids, i) := pciTbl.foldl foundLoop (List.replicate (hpcapMaxNic + 1) 0, 0)
  ((ids.take i).insertionSort (· ≤ ·) ++ ids.drop i, i)

def numberLoop (pciId : Nat) : Nat → List Nat → Int
  | _, [] => -1
  | i, id :: ids =>
    if id = 0 then -1 else if id = pciId then i else numberLoop pciId (i + 1) ids

def hpcapGetIfaceNumberFor (ids : List Nat) (pdev : PciDev) : Int :=
  numberLoop (ixgbeBuildPciId pdev) 0 ids

def freeLoop : Nat → List Nat → Nat
  | i, [] => i
  | i, id :: ids => if id = 0 then i else freeLoop (i + 1) ids

def hpcapGetFirstFreeIfaceNumber (ids : List Nat) : Nat := freeLoop 0 ids

def hpcapGetIfaceNumberOrDefault (ids : List Nat) (pdev : PciDev) : Int × List Nat :=
  let assigned := hpcapGetIfaceNumberFor ids pdev
  if assigned ≥ 0 then (assigned, ids)
  else
    let free := hpcapGetFirstFreeIfaceNumber ids
    (free, hpcapSetFixedIface ids pdev free)

/-- The numbers that devices get one after the other. -/
def numbers : List Nat → List PciDev → List Int
  | _, [] => []
  | ids, pdev :: rest =>
    let (number, ids) := hpcapGetIfaceNumberOrDefault ids pdev
    number :: numbers ids rest

/-- The order of bus, device and function. -/
def Before (d e : PciDev) : Prop := d.bus < e.bus ∨ d.bus = e.bus ∧ d.devfn < e.devfn

/-- However the devices are found and whichever ask for their numbers, each has one of its
own, and they ascend. -/
def NumbersRight (devs : List PciDev) : Prop :=
  ∃ f : PciDev → Int,
    (∀ tbl : List (List PciDev), tbl.flatten.Perm devs → ∀ probes : List PciDev,
      (∀ d ∈ probes, d ∈ devs) →
        numbers (hpcapFixIfaceNumbers tbl).1 probes = probes.map f) ∧
    (∀ d ∈ devs, ∀ e ∈ devs, f d = f e → d = e) ∧
    ∀ d ∈ devs, ∀ e ∈ devs, Before d e → f d < f e

/-- No two devices differ in their domains alone, and none is at the beginning of bus 0, if
there are others. -/
def Separate (devs : List PciDev) : Prop :=
  (∀ d ∈ devs, ∀ e ∈ devs, d.bus = e.bus → d.devfn = e.devfn → d = e) ∧
    ((∀ d ∈ devs, d.bus ≠ 0 ∨ d.devfn ≠ 0) ∨ devs.length ≤ 1)

section Key

variable {d e : PciDev}

theorem pciId_eq (d : PciDev) : ixgbeBuildPciId d = d.bus.toNat * 2 ^ 24 + d.devfn.toNat := by
  have hdevfn : d.devfn.toNat < 2 ^ 24 := d.devfn.toNat_lt.trans (by norm_num)
  rw [ixgbeBuildPciId, ← Nat.shiftLeft_add_eq_or_of_lt hdevfn, Nat.shiftLeft_eq]

theorem pciId_inj : ixgbeBuildPciId d = ixgbeBuildPciId e ↔ d.bus = e.bus ∧ d.devfn = e.devfn := by
  have hd := d.devfn.toNat_lt
  have he := e.devfn.toNat_lt
  rw [pciId_eq, pciId_eq, ← UInt8.toNat_inj, ← UInt8.toNat_inj]
  omega

theorem pciId_lt (h : Before d e) : ixgbeBuildPciId d < ixgbeBuildPciId e := by
  have hd := d.devfn.toNat_lt
  have he := e.devfn.toNat_lt
  rw [pciId_eq, pciId_eq]
  obtain hbus | ⟨hbus, hdevfn⟩ := h
  · have hbus := UInt8.lt_iff_toNat_lt.mp hbus
    omega
  · have hdevfn := UInt8.lt_iff_toNat_lt.mp hdevfn
    rw [hbus]
    omega

theorem pciId_zero : ixgbeBuildPciId d = 0 ↔ d.bus = 0 ∧ d.devfn = 0 := by
  have hd := d.devfn.toNat_lt
  rw [pciId_eq, ← UInt8.toNat_inj, ← UInt8.toNat_inj]
  change _ ↔ d.bus.toNat = 0 ∧ d.devfn.toNat = 0
  omega

end Key

section Table

variable {ids keys : List Nat} {pciId : Nat}

theorem foundLoop_append (s : List Nat × Nat) (ds es : List PciDev) :
    foundLoop s (ds ++ es) = foundLoop (foundLoop s ds) es := by
  induction ds generalizing s with
  | nil => rfl
  | cons d ds ih => exact ih _

theorem foldl_foundLoop (s : List Nat × Nat) (tbl : List (List PciDev)) :
    tbl.foldl foundLoop s = foundLoop s tbl.flatten := by
  induction tbl generalizing s with
  | nil => rfl
  | cons ds tbl ih => rw [List.foldl_cons, ih, List.flatten_cons, foundLoop_append]

/-- The devices found take the places of as many zeros. -/
theorem foundLoop_eq (keys : List Nat) (ds : List PciDev) (k : Nat) :
    foundLoop (keys ++ List.replicate (ds.length + k) 0, keys.length) ds =
      (keys ++ ds.map ixgbeBuildPciId ++ List.replicate k 0, keys.length + ds.length) := by
  induction ds generalizing keys with
  | nil => simp [foundLoop]
  | cons d ds ih =>
    have hset : (keys ++ List.replicate ((d :: ds).length + k) 0).set keys.length
        (ixgbeBuildPciId d) =
          (keys ++ [ixgbeBuildPciId d]) ++ List.replicate (ds.length + k) 0 := by
      have hlen : (d :: ds).length + k = ds.length + k + 1 := by rw [List.length_cons]; omega
      rw [hlen, List.replicate_succ, List.set_append_right _ _ (Nat.le_refl _), Nat.sub_self,
        List.set_cons_zero, List.append_assoc]
      rfl
    have hnext := ih (keys ++ [ixgbeBuildPciId d])
    rw [List.length_append, List.length_singleton] at hnext
    rw [foundLoop, hpcapSetFixedIface, hset, hnext, List.map_cons, List.length_cons]
    refine Prod.ext ?_ ?_
    · simp
    · dsimp only
      omega

/-- The keys of the devices found come first, in order. -/
theorem fixIfaceNumbers_eq {tbl : List (List PciDev)} {devs : List PciDev}
    (h : tbl.flatten.Perm devs) (hlen : devs.length ≤ hpcapMaxNic) :
    (hpcapFixIfaceNumbers tbl).1 = (devs.map ixgbeBuildPciId).insertionSort (· ≤ ·) ++
      List.replicate (hpcapMaxNic + 1 - devs.length) 0 := by
  have hroom : hpcapMaxNic + 1 = tbl.flatten.length + (hpcapMaxNic + 1 - devs.length) := by
    rw [h.length_eq]
    omega
  have hloop := foundLoop_eq [] tbl.flatten (hpcapMaxNic + 1 - devs.length)
  rw [← hroom] at hloop
  simp only [List.nil_append, List.length_nil, Nat.zero_add] at hloop
  have hfound : (tbl.flatten.map ixgbeBuildPciId).length = tbl.flatten.length := List.length_map _
  have hsort : (tbl.flatten.map ixgbeBuildPciId).insertionSort (· ≤ ·) =
      (devs.map ixgbeBuildPciId).insertionSort (· ≤ ·) :=
    List.Perm.eq_of_pairwise' (List.pairwise_insertionSort _ _) (List.pairwise_insertionSort _ _)
      ((List.perm_insertionSort _ _).trans ((h.map _).trans (List.perm_insertionSort _ _).symm))
  rw [hpcapFixIfaceNumbers, foldl_foundLoop, hloop]
  simp only [List.take_left' hfound, List.drop_left' hfound, hsort]

theorem numberLoop_eq (hkeys : ∀ id ∈ keys, id ≠ 0) (rest : List Nat) (i : Nat)
    (hmem : pciId ∈ keys) :
    numberLoop pciId i (keys ++ rest) = i + keys.idxOf pciId := by
  induction keys generalizing i with
  | nil => cases hmem
  | cons id keys ih =>
    have hid := hkeys id List.mem_cons_self
    rw [List.cons_append, numberLoop, if_neg hid]
    by_cases heq : id = pciId
    · rw [if_pos heq, heq, List.idxOf_cons_self]
      rfl
    · have hmem := (List.mem_cons.mp hmem).resolve_left fun h => heq h.symm
      rw [if_neg heq, ih (fun x hx => hkeys x (List.mem_cons_of_mem _ hx)) (i + 1) hmem,
        List.idxOf_cons_ne _ heq]
      omega

theorem idxOf_lt_of_lt (hsorted : keys.Pairwise (· ≤ ·)) {a b : Nat} (ha : a ∈ keys)
    (hb : b ∈ keys) (hlt : a < b) : keys.idxOf a < keys.idxOf b := by
  by_contra hle
  have hai := List.idxOf_lt_length_iff.mpr ha
  have hbi := List.idxOf_lt_length_iff.mpr hb
  obtain heq | hgt := Nat.eq_or_lt_of_le (Nat.not_lt.mp hle)
  · have := (List.idxOf_inj hb).mp heq
    omega
  · have hle := List.pairwise_iff_getElem.mp hsorted _ _ hbi hai hgt
    rw [List.getElem_idxOf, List.getElem_idxOf] at hle
    omega

theorem numbers_of_found (f : PciDev → Int) {probes : List PciDev}
    (h : ∀ d ∈ probes, hpcapGetIfaceNumberFor ids d = f d ∧ 0 ≤ f d) :
    numbers ids probes = probes.map f := by
  induction probes with
  | nil => rfl
  | cons d probes ih =>
    obtain ⟨hd, hpos⟩ := h d List.mem_cons_self
    have hcall : hpcapGetIfaceNumberOrDefault ids d = (f d, ids) := by
      rw [hpcapGetIfaceNumberOrDefault, hd]
      exact if_pos hpos
    rw [numbers, hcall, List.map_cons]
    simp only [ih fun e he => h e (List.mem_cons_of_mem _ he)]

end Table

section Numbers

variable {devs : List PciDev} {d e : PciDev}

/-- The place of a device among all of them. -/
def place (devs : List PciDev) (d : PciDev) : Int :=
  ((devs.map ixgbeBuildPciId).insertionSort (· ≤ ·)).idxOf (ixgbeBuildPciId d)

theorem mem_sorted (hd : d ∈ devs) :
    ixgbeBuildPciId d ∈ (devs.map ixgbeBuildPciId).insertionSort (· ≤ ·) :=
  (List.mem_insertionSort _).mpr (List.mem_map_of_mem hd)

theorem numbersRight_of_nonzero (hlen : devs.length ≤ hpcapMaxNic)
    (hkeys : ∀ d ∈ devs, ∀ e ∈ devs, d.bus = e.bus → d.devfn = e.devfn → d = e)
    (hzero : ∀ d ∈ devs, d.bus ≠ 0 ∨ d.devfn ≠ 0) : NumbersRight devs := by
  have hnonzero : ∀ id ∈ (devs.map ixgbeBuildPciId).insertionSort (· ≤ ·), id ≠ 0 := by
    intro id hid h
    obtain ⟨d, hd, rfl⟩ := List.mem_map.mp ((List.mem_insertionSort _).mp hid)
    obtain ⟨hbus, hdevfn⟩ := pciId_zero.mp h
    exact (hzero d hd).elim (fun h => h hbus) fun h => h hdevfn
  refine ⟨place devs, fun tbl htbl probes hprobes => ?_, fun d hd e he h => ?_,
    fun d hd e he h => ?_⟩
  · apply numbers_of_found
    intro d hd
    rw [fixIfaceNumbers_eq htbl hlen, hpcapGetIfaceNumberFor,
      numberLoop_eq hnonzero _ 0 (mem_sorted (hprobes d hd)), place]
    omega
  · have hidx := Int.ofNat_inj.mp h
    obtain ⟨hbus, hdevfn⟩ := pciId_inj.mp ((List.idxOf_inj (mem_sorted hd)).mp hidx)
    exact hkeys d hd e he hbus hdevfn
  · exact Int.ofNat_lt.mpr (idxOf_lt_of_lt (List.pairwise_insertionSort _ _) (mem_sorted hd)
      (mem_sorted he) (pciId_lt h))

/-- A device alone at the beginning of bus 0 gets the number 0 each time. -/
theorem numbersRight_of_one (hd : ixgbeBuildPciId d = 0) : NumbersRight [d] := by
  refine ⟨fun _ => 0, fun tbl htbl probes hprobes => ?_, fun a ha b hb _ => ?_,
    fun a ha b hb hlt => ?_⟩
  · have htable : (hpcapFixIfaceNumbers tbl).1 = List.replicate (hpcapMaxNic + 1) 0 := by
      rw [fixIfaceNumbers_eq htbl (by simp [hpcapMaxNic]), List.map_singleton, hd]
      rfl
    rw [htable]
    induction probes with
    | nil => rfl
    | cons e probes ih =>
      obtain rfl := List.mem_singleton.mp (hprobes e List.mem_cons_self)
      have hcall : hpcapGetIfaceNumberOrDefault (List.replicate (hpcapMaxNic + 1) 0) e =
          (0, List.replicate (hpcapMaxNic + 1) 0) := by
        simp only [hpcapGetIfaceNumberOrDefault, hpcapGetIfaceNumberFor, hpcapSetFixedIface, hd]
        rfl
      rw [numbers, hcall, List.map_cons]
      simp only [ih fun x hx => hprobes x (List.mem_cons_of_mem _ hx)]
  · rw [List.mem_singleton.mp ha, List.mem_singleton.mp hb]
  · have hself := pciId_lt hlt
    rw [List.mem_singleton.mp ha, List.mem_singleton.mp hb] at hself
    exact absurd hself (lt_irrefl _)

/-- Asked alone, a device gets a number that depends on its key only. -/
theorem numbers_singleton (ids : List Nat) (h : ixgbeBuildPciId d = ixgbeBuildPciId e) :
    numbers ids [d] = numbers ids [e] := by
  have hfor : hpcapGetIfaceNumberFor ids d = hpcapGetIfaceNumberFor ids e := by
    rw [hpcapGetIfaceNumberFor, h, hpcapGetIfaceNumberFor]
  have hcall : hpcapGetIfaceNumberOrDefault ids d = hpcapGetIfaceNumberOrDefault ids e := by
    simp only [hpcapGetIfaceNumberOrDefault, hfor, hpcapSetFixedIface, h]
  rw [numbers, hcall, numbers]

/-- A key that is zero comes first and hides all that follows. -/
theorem numbers_hidden (hlen : devs.length ≤ hpcapMaxNic) (hd : d ∈ devs)
    (hzero : ixgbeBuildPciId d = 0) (e : PciDev) :
    numbers (hpcapFixIfaceNumbers [devs]).1 [e] = [0] := by
  have hperm : [devs].flatten.Perm devs := by simp
  have hmem := mem_sorted hd
  rw [hzero] at hmem
  have hsorted := List.pairwise_insertionSort (· ≤ ·) (devs.map ixgbeBuildPciId)
  obtain ⟨keys, hfirst⟩ : ∃ keys, (devs.map ixgbeBuildPciId).insertionSort (· ≤ ·) = 0 :: keys := by
    cases hkeys : (devs.map ixgbeBuildPciId).insertionSort (· ≤ ·) with
    | nil =>
      rw [hkeys] at hmem
      cases hmem
    | cons id keys =>
      rw [hkeys] at hmem hsorted
      obtain h | h := List.mem_cons.mp hmem
      · exact ⟨keys, by rw [h]⟩
      · exact ⟨keys, by rw [Nat.le_zero.mp (List.rel_of_pairwise_cons hsorted h)]⟩
  rw [fixIfaceNumbers_eq hperm hlen, hfirst]
  rfl

theorem separate_of_right (hnodup : devs.Nodup) (hlen : devs.length ≤ hpcapMaxNic)
    (h : NumbersRight devs) : Separate devs := by
  obtain ⟨f, hf, hinj, -⟩ := h
  have halone : ∀ d ∈ devs, numbers (hpcapFixIfaceNumbers [devs]).1 [d] = [f d] := by
    intro d hd
    refine hf [devs] (by simp) [d] fun e he => ?_
    rw [List.mem_singleton.mp he]
    exact hd
  refine ⟨fun d hd e he hbus hdevfn => hinj d hd e he ?_, ?_⟩
  · have hsame := numbers_singleton (hpcapFixIfaceNumbers [devs]).1
      (pciId_inj.mpr ⟨hbus, hdevfn⟩)
    rw [halone d hd, halone e he] at hsame
    exact List.singleton_inj.mp hsame
  · by_contra hno
    simp only [not_or, not_forall, not_not, Nat.not_le, exists_prop] at hno
    obtain ⟨⟨d, hd, hbus, hdevfn⟩, hmany⟩ := hno
    have hzero : ∀ e ∈ devs, f e = 0 := by
      intro e he
      have hhidden := numbers_hidden hlen hd (pciId_zero.mpr ⟨hbus, hdevfn⟩) e
      rw [halone e he] at hhidden
      exact List.singleton_inj.mp hhidden
    obtain ⟨a, b, rest, rfl⟩ : ∃ a b rest, devs = a :: b :: rest := by
      cases devs with
      | nil => cases hmany
      | cons a devs =>
        cases devs with
        | nil => cases Nat.lt_irrefl _ hmany
        | cons b rest => exact ⟨a, b, rest, rfl⟩
    have hab : a = b := hinj a (by simp) b (by simp)
      ((hzero a (by simp)).trans (hzero b (by simp)).symm)
    simp [hab] at hnodup

theorem right_of_separate (hlen : devs.length ≤ hpcapMaxNic) (h : Separate devs) :
    NumbersRight devs := by
  obtain ⟨hkeys, hzero | hone⟩ := h
  · exact numbersRight_of_nonzero hlen hkeys hzero
  · cases devs with
    | nil => exact numbersRight_of_nonzero hlen hkeys fun d hd => nomatch hd
    | cons d rest =>
      obtain rfl : rest = [] := List.eq_nil_of_length_eq_zero (by simpa using hone)
      by_cases hd : ixgbeBuildPciId d = 0
      · exact numbersRight_of_one hd
      · refine numbersRight_of_nonzero hlen hkeys fun e he => ?_
        rw [List.mem_singleton.mp he]
        by_contra hno
        simp only [not_or, not_not] at hno
        exact hd (pciId_zero.mpr hno)

/-- Each device has a number of its own, in order, whenever and however they are found just if
the keys tell the devices apart and none of several is zero. -/
theorem iface_numbers_iff (devs : List PciDev) (hnodup : devs.Nodup)
    (hlen : devs.length ≤ hpcapMaxNic) : NumbersRight devs ↔ Separate devs :=
  ⟨separate_of_right hnodup hlen, right_of_separate hlen⟩

end Numbers

/-- Two ports of one card, and a card on another bus. -/
theorem iface_numbers_iff_three : NumbersRight [⟨0, 5, 1⟩, ⟨0, 5, 0⟩, ⟨0, 3, 0⟩] := by
  refine (iface_numbers_iff _ (by decide) (by decide)).mpr ⟨?_, .inl ?_⟩
  · decide
  · decide

/-- Two devices whose domains alone differ get the same number. -/
theorem domains_collide : ¬ ∀ devs : List PciDev, devs.Nodup → devs.length ≤ hpcapMaxNic →
    NumbersRight devs := by
  intro h
  obtain ⟨f, hf, hinj, -⟩ := h [⟨0, 1, 0⟩, ⟨1, 1, 0⟩] (by decide) (by decide)
  have hnumbers := hf [[⟨0, 1, 0⟩, ⟨1, 1, 0⟩]] (by simp) [⟨0, 1, 0⟩, ⟨1, 1, 0⟩] fun d hd => hd
  have hrun : numbers (hpcapFixIfaceNumbers [[⟨0, 1, 0⟩, ⟨1, 1, 0⟩]]).1
      [⟨0, 1, 0⟩, ⟨1, 1, 0⟩] = [0, 0] := by decide
  rw [hrun] at hnumbers
  obtain ⟨hfirst, hsecond⟩ : 0 = f ⟨0, 1, 0⟩ ∧ 0 = f ⟨1, 1, 0⟩ := by simpa using hnumbers
  have hsame := hinj ⟨0, 1, 0⟩ (by simp) ⟨1, 1, 0⟩ (by simp) (hfirst.symm.trans hsecond)
  exact absurd hsame (by decide)

end Hpcap.Pci
