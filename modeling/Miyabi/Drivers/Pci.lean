import Miyabi.Base.Search
import Miyabi.Base.Word

namespace Miyabi.Drivers.Pci

open Miyabi.Base

-- Where a function is on the buses.
structure Place where
  bus : BitVec 8
  device : BitVec 5
  function : BitVec 3
  deriving DecidableEq

-- The 64 registers of every function.
abbrev ConfigSpace := Place → BitVec 6 → BitVec 32

-- The address port, and the registers behind the data port.
structure Ports where
  address : BitVec 32
  config : ConfigSpace

namespace Ports

-- What an address selects.
def place (address : BitVec 32) : Place :=
  ⟨address.extractLsb' 16 8, address.extractLsb' 11 5, address.extractLsb' 8 3⟩

def register (address : BitVec 32) : BitVec 6 := address.extractLsb' 2 6

def outAddress (p : Ports) (val : BitVec 32) : Ports := { p with address := val }

def inData (p : Ports) : BitVec 32 := p.config (place p.address) (register p.address)

def outData (p : Ports) (val : BitVec 32) : Ports :=
  { p with
    config := Function.update p.config (place p.address)
      (Function.update (p.config (place p.address)) (register p.address) val) }

end Ports

def PCI_REG_VENDOR_ID : BitVec 8 := 0x00
def PCI_REG_COMMAND : BitVec 8 := 0x04
def PCI_REG_BAR5 : BitVec 8 := 0x24

def configAddress (bus device func offset : BitVec 8) : BitVec 32 :=
  (bus.setWidth 32 <<< 16) ||| (device.setWidth 32 <<< 11) ||| (func.setWidth 32 <<< 8) |||
    (offset &&& 0xFC).setWidth 32 ||| 0x80000000

def pciRead32 (bus device func offset : BitVec 8) (p : Ports) : BitVec 32 × Ports :=
  let p := p.outAddress (configAddress bus device func offset)
  (p.inData, p)

def pciWrite32 (bus device func offset : BitVec 8) (value : BitVec 32) (p : Ports) : Ports :=
  let p := p.outAddress (configAddress bus device func offset)
  p.outData value

structure PciDevice where
  bus : BitVec 8
  device : BitVec 8
  function : BitVec 8
  vendorId : BitVec 16
  deviceId : BitVec 16
  classCode : BitVec 8
  subclass : BitVec 8
  progIf : BitVec 8
  bar5 : BitVec 64

-- The body of the loops of pci_find_ahci. some: *out_dev is set, and the function returns 1.
def probe (bus dev func : BitVec 8) (p : Ports) : Option PciDevice × Ports :=
  let (vendorDevice, p) := pciRead32 bus dev func PCI_REG_VENDOR_ID p
  let vendor := (vendorDevice &&& 0xFFFF).setWidth 16
  if vendor = 0xFFFF then (none, p)
  else
    let (classInfo, p) := pciRead32 bus dev func 0x08 p
    let classCode := ((classInfo >>> 24) &&& 0xFF).setWidth 8
    let subclass := ((classInfo >>> 16) &&& 0xFF).setWidth 8
    let progIf := ((classInfo >>> 8) &&& 0xFF).setWidth 8
    if classCode = 0x01 ∧ subclass = 0x06 ∧ progIf = 0x01 then
      let (bar5Low, p) := pciRead32 bus dev func PCI_REG_BAR5 p
      let outDev : PciDevice :=
        { bus := bus
          device := dev
          function := func
          vendorId := vendor
          deviceId := ((vendorDevice >>> 16) &&& 0xFFFF).setWidth 16
          classCode := classCode
          subclass := subclass
          progIf := progIf
          bar5 := (bar5Low &&& 0xFFFFFFF0).setWidth 64 }
      -- The command word is taken from the register of BAR5.
      let (cmd, p) := pciRead32 bus dev func PCI_REG_BAR5 p
      let cmd := cmd ||| ((1 <<< 1) ||| (1 <<< 2))
      (some outDev, pciWrite32 bus dev func PCI_REG_COMMAND cmd p)
    else (none, p)

-- none: the function returns 0.
def pciFindAhci : Ports → Option PciDevice × Ports :=
  search (fun bus => search (fun dev => search (fun func =>
    probe (BitVec.ofNat 8 bus) (BitVec.ofNat 8 dev) (BitVec.ofNat 8 func)) (List.range 8))
      (List.range 32)) (List.range 256)

end Miyabi.Drivers.Pci
