import Miyabi.Mm.Pmm.Traced
import Miyabi.Mm.Vmm.Unmapped
import Miyabi.Mm.Vmm.Range
import Miyabi.Mm.Vmm.Spaces.Sharing
import Miyabi.Mm.Boot.Theorems
import Miyabi.Elf.Loader.Exposed
import Miyabi.Elf.Loader.Given
import Miyabi.Elf.Loader.Reads
import Miyabi.Fs.Part.Mbr.Theorems
import Miyabi.Fs.Initramfs.Inside
import Miyabi.Fs.Initramfs.GivesBack
import Miyabi.Fs.Mount
import Miyabi.Fs.Vfs.Mounted
import Miyabi.Modules.File
import Miyabi.Modules.Loader.Functions
import Miyabi.Modules.Loader.Result
import Miyabi.Arch.Interrupt.Theorems
import Miyabi.Arch.Preempt.Theorems
import Miyabi.Arch.Spinlock
import Miyabi.Arch.Protection.Ports
import Miyabi.Arch.User.Theorems
import Miyabi.Cmdline.Theorems
import Miyabi.Drivers.Fb.Text
import Miyabi.Drivers.Pci.Theorems
import Miyabi.Scripts.Font2bin.Theorems
