import Aboot.Bio.Transparent
import Aboot.Ext2.Table
import Aboot.Ext2.Errors
import Aboot.Options.BootLine
import Aboot.Load.Flush
import Aboot.Load.Checked
import Aboot.Load.Initrd
import Aboot.Load.Memory
import Aboot.Load.EndOfFile
import Aboot.Load.Gunzip
import Aboot.Iso.Table
import Aboot.Iso.SymLink
import Aboot.Ext2.Extents
import Aboot.Ext2.Links
import Aboot.E2.Inode
import Aboot.E2.Allocator
import Aboot.E2.Close
import Aboot.Tools.Elfencap
import Aboot.Tools.RawKernel
import Aboot.Tools.Reinstall
import Aboot.Net.Decodes
import Aboot.E2.BootBlock
import Aboot.E2.Search
import Aboot.E2.Contiguous
import Aboot.E2.Fill
import Aboot.E2.BootFile
import Aboot.Options.Config
import Aboot.Options.InitrdArg
import Aboot.Options.Stores
import Aboot.Options.Rounds
import Aboot.Load.InitrdWhole
import Aboot.Ext2.Named
import Aboot.Ext2.Hang
import Aboot.Lib.Reader
import Aboot.Load.Reads
import Aboot.Cons
import Aboot.Load.Heap
import Aboot.Options.Listing
import Aboot.Zip.Input
import Aboot.E2.Truncate
import Aboot.E2.Supply
import Aboot.Lib.Radix
import Aboot.E2.Mapping
import Aboot.E2.Grown
import Aboot.E2.Allocate
import Aboot.E2.Blkno
import Aboot.Lib.Records
import Aboot.E2.Entries
import Aboot.E2.FileBlock
import Aboot.E2.Mknod
import Aboot.Lib.History
import Aboot.Tools.Label
import Aboot.Tools.Overlap
import Aboot.Tools.Exit
import Aboot.Tools.Indices
import Aboot.Tools.ShortWrite
import Aboot.Ufs.Impl
import Aboot.Ufs.Kept
import Aboot.Ufs.BlockMap
import Aboot.Ufs.EndOfFile
import Aboot.Tools.Srmbootfat
import Aboot.Iso.RockName
import Aboot.Iso.FindEntry
import Aboot.Iso.ReadDir
import Aboot.Printf
import Aboot.Tools.FatEntry
import Aboot.Strings
import Aboot.Lib.PrefixCode
import Aboot.Lib.BitStream
import Aboot.Lib.Deflate
import Aboot.Zip.Inflate
import Aboot.Zip.Tables
import Aboot.Zip.Build
import Aboot.Zip.Codes
import Aboot.Zip.BitBuffer
import Aboot.Zip.Decode
import Aboot.Zip.Window
import Aboot.Zip.Symbols
import Aboot.Zip.Blocks
import Aboot.Zip.Dynamic
import Aboot.Zip.Stream
import Aboot.Lib.Alpha
import Aboot.Divide.Text
import Aboot.Divide.Unsigned
import Aboot.Divide.Signed
import Aboot.Setjmp
import Aboot.Head
import Aboot.Vsprintf.Number
import Aboot.Vsprintf.Format
