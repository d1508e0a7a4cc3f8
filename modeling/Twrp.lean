import Twrp.Bytes.Slice
import Twrp.Bytes.Digits
import Twrp.Bytes.Pattern
import Twrp.Bytes.Text
import Twrp.Program.Interaction
import Twrp.Program.Worklist
import Twrp.Program.Saturation
import Twrp.Program.Sorting
import Twrp.Posix.FileSystem
import Twrp.Posix.Process
import Twrp.Posix.Below
import Twrp.Posix.Fresh
import Twrp.Python.Text
import Twrp.Python.Struct
import Twrp.Python.Path
import Twrp.Cpio.Newc
import Twrp.Cpio.Reader
import Twrp.Cpio.Pack
import Twrp.Cpio.DevNodes
import Twrp.Cpio.PackDir
import Twrp.Cpio.Names
import Twrp.Cpio.Faithful
import Twrp.Cpio.Emitted
import Twrp.Cpio.Numbers
import Twrp.Cpio.Parents
import Twrp.Bootstrap.Unpack
import Twrp.Bootstrap.Walk
import Twrp.Bootstrap.Calls
import Twrp.Bootstrap.Files
import Twrp.Bootstrap.Truncation
import Twrp.Bootstrap.Archive
import Twrp.Bootstrap.Items
import Twrp.Bootstrap.Packed
import Twrp.Bootstrap.Compact
import Twrp.Bootstrap.Damage
import Twrp.Bootstrap.Extract
import Twrp.Bootstrap.Modes
import Twrp.Bootstrap.Failures
import Twrp.Bootstrap.Handover
import Twrp.Bootstrap.Memory
import Twrp.Bootstrap.Bounds
import Twrp.Bootstrap.LogNumber
import Twrp.Image.Vbmeta
import Twrp.Image.VendorBoot
import Twrp.Bootstrap.Segment
import Twrp.Image.AvbTail
import Twrp.Image.InitBoot
import Twrp.Image.Extract
import Twrp.Deps.ElfDeps
import Twrp.Deps.DepClosure
import Twrp.Elf.Layout
import Twrp.Elf.MakeInit
import Twrp.Deps.ElfNeeded
import Twrp.Lz.Overlap
import Twrp.Lz.Block
import Twrp.Lz.Words
import Twrp.Lz.Encoder
import Twrp.Lz4.Plain
import Twrp.Lz4.RoundTrip
import Twrp.Bootstrap.Pivot
