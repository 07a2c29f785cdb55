import Miyabi.Drivers.Pci
import Mathlib.Tactic.IntervalCases

namespace Miyabi.Drivers.Pci

open Miyabi.Base

theorem bytes_extract (x : BitVec 32) (k : ℕ) : ((x >>> k) &&& 0xFF).setWidth 8 = x.extractLsb' k 8 := by
  apply BitVec.eq_of_getLsbD_eq
  intro i hi
  interval_cases i <;> simp

theorem place_address (f : Place) (offset : BitVec 8) :
    Ports.place (configAddress f.bus (f.device.setWidth 8) (f.function.setWidth 8) offset) = f := by
  obtain ⟨bus, device, function⟩ := f
  simp only [Ports.place, configAddress, Place.mk.injEq]
  refine ⟨?_, ?_, ?_⟩
  · apply BitVec.eq_of_getLsbD_eq
    intro i hi
    interval_cases i <;> simp
  · apply BitVec.eq_of_getLsbD_eq
    intro i hi
    interval_cases i <;> simp
  · apply BitVec.eq_of_getLsbD_eq
    intro i hi
    interval_cases i <;> simp

theorem register_address (bus device func offset : BitVec 8) :
    Ports.register (configAddress bus device func offset) = offset.extractLsb' 2 6 := by
  simp only [Ports.register, configAddress]
  apply BitVec.eq_of_getLsbD_eq
  intro i hi
  interval_cases i <;> simp

section Function

variable (c : ConfigSpace) (f : Place)

def vendorDevice : BitVec 32 := c f (PCI_REG_VENDOR_ID.extractLsb' 2 6)
def classInfo : BitVec 32 := c f ((0x08 : BitVec 8).extractLsb' 2 6)
def bar5 : BitVec 32 := c f (PCI_REG_BAR5.extractLsb' 2 6)
def command : BitVec 32 := c f (PCI_REG_COMMAND.extractLsb' 2 6)

-- A function of a mass storage controller with the AHCI interface.
def IsAhci : Prop :=
  (vendorDevice c f).extractLsb' 0 16 ≠ 0xFFFF ∧ (classInfo c f).extractLsb' 24 8 = 0x01 ∧
    (classInfo c f).extractLsb' 16 8 = 0x06 ∧ (classInfo c f).extractLsb' 8 8 = 0x01

instance : Decidable (IsAhci c f) := inferInstanceAs (Decidable (_ ∧ _))

structure Describes (d : PciDevice) : Prop where
  bus : d.bus = f.bus
  device : d.device = f.device.setWidth 8
  function : d.function = f.function.setWidth 8
  vendorId : d.vendorId = (vendorDevice c f).extractLsb' 0 16
  deviceId : d.deviceId = (vendorDevice c f).extractLsb' 16 16
  classCode : d.classCode = (classInfo c f).extractLsb' 24 8
  subclass : d.subclass = (classInfo c f).extractLsb' 16 8
  progIf : d.progIf = (classInfo c f).extractLsb' 8 8
  bar5 : d.bar5 = (bar5 c f &&& ~~~0xF).setWidth 64

-- The place of a function in the order of the search.
def index : ℕ := f.bus.toNat * 256 + f.device.toNat * 8 + f.function.toNat

def First : Prop := IsAhci c f ∧ ∀ g, IsAhci c g → index f ≤ index g

def withCommand (v : BitVec 32) : ConfigSpace :=
  Function.update c f (Function.update (c f) (PCI_REG_COMMAND.extractLsb' 2 6) v)

end Function

-- Memory Space and Bus Master
def enableBits : BitVec 32 := 0x6

-- The first controller is found and enabled, and nothing else changes.
structure Enables (c : ConfigSpace) (r : Option PciDevice × Ports) : Prop where
  found : r.1.isSome ↔ ∃ f, IsAhci c f
  first : ∀ d ∈ r.1, ∃ f, First c f ∧ Describes c f d ∧
    r.2.config = withCommand c f (command c f ||| enableBits)
  missing : r.1 = none → r.2.config = c

def probeAt (f : Place) : Ports → Option PciDevice × Ports :=
  probe f.bus (f.device.setWidth 8) (f.function.setWidth 8)

theorem pciRead32_at (f : Place) (offset : BitVec 8) (p : Ports) :
    pciRead32 f.bus (f.device.setWidth 8) (f.function.setWidth 8) offset p =
      (p.config f (offset.extractLsb' 2 6),
        ⟨configAddress f.bus (f.device.setWidth 8) (f.function.setWidth 8) offset, p.config⟩) := by
  simp only [pciRead32, Ports.inData, Ports.outAddress, place_address, register_address]

theorem pciWrite32_at (f : Place) (v : BitVec 32) (p : Ports) :
    (pciWrite32 f.bus (f.device.setWidth 8) (f.function.setWidth 8) PCI_REG_COMMAND v p).config =
      withCommand p.config f v := by
  simp only [pciWrite32, Ports.outData, Ports.outAddress, place_address, register_address,
    withCommand]

theorem word_extract (x : BitVec 32) : (x &&& 0xFFFF).setWidth 16 = x.extractLsb' 0 16 := by
  apply BitVec.eq_of_getLsbD_eq
  intro i hi
  interval_cases i <;> simp

variable {f : Place} {p : Ports}

theorem probe_miss (h : ¬IsAhci p.config f) :
    ∃ p', probeAt f p = (none, p') ∧ p'.config = p.config := by
  simp only [probeAt, probe, pciRead32_at, word_extract, bytes_extract]
  by_cases hvendor : (vendorDevice p.config f).extractLsb' 0 16 = 0xFFFF
  · exact ⟨_, if_pos hvendor, rfl⟩
  · refine ⟨_, (if_neg hvendor).trans (if_neg fun hclass => ?_), rfl⟩
    exact h ⟨hvendor, hclass⟩

-- The command of a controller is overwritten with its BAR5.
theorem probe_hit (h : IsAhci p.config f) :
    ∃ d p', probeAt f p = (some d, p') ∧ Describes p.config f d ∧
      p'.config = withCommand p.config f (bar5 p.config f ||| enableBits) := by
  obtain ⟨hvendor, hclass⟩ := h
  simp only [probeAt, probe, pciRead32_at, word_extract, bytes_extract]
  refine ⟨_, _, (if_neg hvendor).trans (if_pos hclass), ?_, pciWrite32_at f _ _⟩
  constructor <;> rfl

-- The functions in the order of the search.
def places : List Place :=
  (List.range 256).flatMap fun bus => (List.range 32).flatMap fun device =>
    (List.range 8).map fun function =>
      ⟨BitVec.ofNat 8 bus, BitVec.ofNat 5 device, BitVec.ofNat 3 function⟩

theorem mem_places (f : Place) : f ∈ places := by
  simp only [places, List.mem_flatMap, List.mem_map, List.mem_range]
  refine ⟨f.bus.toNat, f.bus.isLt, f.device.toNat, f.device.isLt, f.function.toNat,
    f.function.isLt, ?_⟩
  simp only [BitVec.ofNat_toNat, BitVec.setWidth_eq]

theorem places_sorted : places.Pairwise fun f g => index f < index g := by
  have hindex : ∀ bus < 256, ∀ device < 32, ∀ function < 8,
      index ⟨BitVec.ofNat 8 bus, BitVec.ofNat 5 device, BitVec.ofNat 3 function⟩ =
        bus * 256 + device * 8 + function := by
    intro bus hbus device hdevice function hfunction
    simp only [index, BitVec.toNat_ofNat]
    omega
  simp only [places, List.pairwise_flatMap, List.pairwise_map, List.mem_flatMap, List.mem_map,
    List.mem_range]
  refine ⟨fun bus hbus => ⟨fun device hdevice => ?_, ?_⟩, ?_⟩
  · refine List.pairwise_lt_range.imp_of_mem fun ha hb hlt => ?_
    rw [hindex _ hbus _ hdevice _ (List.mem_range.mp ha), hindex _ hbus _ hdevice _ (List.mem_range.mp hb)]
    omega
  · refine List.pairwise_lt_range.imp_of_mem fun ha hb hlt => ?_
    rintro f ⟨i, hi, rfl⟩ g ⟨j, hj, rfl⟩
    rw [hindex _ hbus _ (List.mem_range.mp ha) _ hi, hindex _ hbus _ (List.mem_range.mp hb) _ hj]
    omega
  · refine List.pairwise_lt_range.imp_of_mem fun ha hb hlt => ?_
    rintro f ⟨d, hd, i, hi, rfl⟩ g ⟨e, he, j, hj, rfl⟩
    rw [hindex _ (List.mem_range.mp ha) _ hd _ hi, hindex _ (List.mem_range.mp hb) _ he _ hj]
    omega

theorem pciFindAhci_eq (p : Ports) : pciFindAhci p = search probeAt places p := by
  rw [places, ← search_search]
  refine search_congr (fun bus hbus => funext fun p => ?_) p
  rw [← search_search]
  refine search_congr (fun dev hdev => funext fun p => ?_) p
  rw [search_map]
  refine search_congr (fun func hfunc => ?_) p
  rw [List.mem_range] at hdev hfunc
  have hwide : ∀ {n k : ℕ}, n < 2 ^ k → k ≤ 8 → (BitVec.ofNat k n).setWidth 8 = BitVec.ofNat 8 n := by
    intro n k hn hk
    apply BitVec.eq_of_toNat_eq
    rw [BitVec.toNat_setWidth, BitVec.toNat_ofNat, BitVec.toNat_ofNat, Nat.mod_eq_of_lt hn]
  rw [probeAt, hwide hdev (by omega), hwide hfunc (by omega)]

theorem index_injective {f g : Place} (h : index f = index g) : f = g := by
  obtain ⟨b, d, i⟩ := f
  obtain ⟨b', d', i'⟩ := g
  simp only [index] at h
  have hb : b = b' := BitVec.eq_of_toNat_eq (by omega)
  have hd : d = d' := BitVec.eq_of_toNat_eq (by omega)
  have hi : i = i' := BitVec.eq_of_toNat_eq (by omega)
  rw [hb, hd, hi]

theorem First.unique {c : ConfigSpace} {f g : Place} (hf : First c f) (hg : First c g) : f = g :=
  index_injective (Nat.le_antisymm (hf.2 g hg.1) (hg.2 f hf.1))

-- Where a controller comes first, the search ends.
theorem exists_first {c : ConfigSpace} (h : ∃ f, IsAhci c f) :
    ∃ front f back, places = front ++ f :: back ∧ (∀ g ∈ front, ¬IsAhci c g) ∧ First c f := by
  obtain ⟨f, hf⟩ := h
  have hfind : (places.find? fun f => IsAhci c f).isSome := by
    rw [List.find?_isSome]
    exact ⟨f, mem_places f, decide_eq_true hf⟩
  obtain ⟨f, hfind⟩ := Option.isSome_iff_exists.mp hfind
  obtain ⟨hf, front, back, hsplit, hfront⟩ := List.find?_eq_some_iff_append.mp hfind
  have hfront : ∀ g ∈ front, ¬IsAhci c g := fun g hg => by simpa using hfront g hg
  refine ⟨front, f, back, hsplit, hfront, of_decide_eq_true hf, fun g hg => ?_⟩
  have hsorted := places_sorted
  have hmem := mem_places g
  rw [hsplit] at hsorted hmem
  rcases List.mem_append.mp hmem with hin | hin
  · exact absurd hg (hfront g hin)
  · rcases List.mem_cons.mp hin with rfl | hin
    · exact le_rfl
    · exact (List.rel_of_pairwise_cons (List.pairwise_append.mp hsorted).2.1 hin).le

-- What the search does, with and without a controller.
theorem pciFindAhci_cases (p : Ports) :
    ((∀ f, ¬IsAhci p.config f) ∧ (pciFindAhci p).1 = none ∧ (pciFindAhci p).2.config = p.config) ∨
      ∃ f d, First p.config f ∧ Describes p.config f d ∧ (pciFindAhci p).1 = some d ∧
        (pciFindAhci p).2.config = withCommand p.config f (bar5 p.config f ||| enableBits) := by
  have hmiss : ∀ f q, q.config = p.config → ¬IsAhci p.config f →
      ∃ q', probeAt f q = (none, q') ∧ q'.config = p.config := by
    intro f q hq hf
    rw [← hq] at hf ⊢
    exact probe_miss hf
  rw [pciFindAhci_eq]
  by_cases h : ∃ f, IsAhci p.config f
  · obtain ⟨front, f, back, hsplit, hfront, hfirst⟩ := exists_first h
    have hhit : ∀ q, q.config = p.config → ∃ d q', probeAt f q = (some d, q') ∧
        Describes p.config f d ∧
        q'.config = withCommand p.config f (bar5 p.config f ||| enableBits) := by
      intro q hq
      have hf := hfirst.1
      rw [← hq] at hf ⊢
      exact probe_hit hf
    have hfound : ∀ q, q.config = p.config → (probeAt f q).1.isSome := by
      intro q hq
      obtain ⟨d, q', hprobe, -⟩ := hhit q hq
      rw [hprobe]
      rfl
    obtain ⟨q, hq, hsearch⟩ := search_first hmiss hfront rfl hfound
    obtain ⟨d, q', hprobe, hdescribes, hconfig⟩ := hhit q hq
    rw [hsplit, hsearch, hprobe]
    exact Or.inr ⟨f, d, hfirst, hdescribes, rfl, hconfig⟩
  · have hnone : ∀ f, ¬IsAhci p.config f := not_exists.mp h
    obtain ⟨q, hsearch, hq⟩ := search_none hmiss (fun f _ => hnone f) rfl
    rw [hsearch]
    exact Or.inl ⟨hnone, rfl, hq⟩

theorem withCommand_inj {c : ConfigSpace} {f : Place} {v w : BitVec 32} :
    withCommand c f v = withCommand c f w ↔ v = w := by
  constructor
  · intro h
    have hself := congrFun (congrFun h f) (PCI_REG_COMMAND.extractLsb' 2 6)
    simpa only [withCommand, Function.update_self] using hself
  · exact congrArg _

-- The search does what it should where BAR5 and the command of the first controller agree
-- besides the two bits, and where there is none.
theorem find_ahci_iff (p : Ports) :
    Enables p.config (pciFindAhci p) ↔
      ∀ f, First p.config f → bar5 p.config f ||| enableBits = command p.config f ||| enableBits := by
  rcases pciFindAhci_cases p with ⟨hnone, hresult, hconfig⟩ | ⟨f, d, hfirst, hd, hresult, hconfig⟩
  · constructor
    · intro _ f hf
      exact absurd hf.1 (hnone f)
    · intro _
      constructor
      case found =>
        rw [hresult]
        constructor
        · intro h
          cases h
        · rintro ⟨f, hf⟩
          exact absurd hf (hnone f)
      case first =>
        intro d hd
        rw [hresult] at hd
        cases hd
      case missing => exact fun _ => hconfig
  · constructor
    · intro h g hg
      obtain ⟨f', hf', -, hconfig'⟩ := h.first d hresult
      cases hfirst.unique hf'
      cases hfirst.unique hg
      exact withCommand_inj.mp (hconfig.symm.trans hconfig')
    · intro h
      constructor
      case found =>
        rw [hresult]
        exact ⟨fun _ => ⟨f, hfirst.1⟩, fun _ => rfl⟩
      case first =>
        intro d' hd'
        cases hresult.symm.trans hd'
        exact ⟨f, hfirst, hd, hconfig.trans (withCommand_inj.mpr (h f hfirst))⟩
      case missing =>
        intro hnone
        cases hresult.symm.trans hnone

-- A controller at the first place, with its I/O space enabled and its BAR5 at 0xFEBF1000.
def oneController : Ports where
  address := 0
  config f register :=
    if f = ⟨0, 0, 0⟩ then
      if register = 0 then 0x29228086
      else if register = 1 then 0x1
      else if register = 2 then 0x01060102
      else if register = 9 then 0xFEBF1000
      else 0
    else 0xFFFFFFFF

theorem find_ahci_command : ¬Enables oneController.config (pciFindAhci oneController) := by
  intro h
  have hahci : IsAhci oneController.config ⟨0, 0, 0⟩ := by decide
  have hfirst : First oneController.config ⟨0, 0, 0⟩ := ⟨hahci, fun g _ => Nat.zero_le _⟩
  have hsame := (find_ahci_iff oneController).mp h _ hfirst
  exact absurd hsame (by decide)

end Miyabi.Drivers.Pci
