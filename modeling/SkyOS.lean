import SkyOS.Lib.Dyadic
import SkyOS.Lib.Lockstep
import SkyOS.Lib.Traced
import SkyOS.Mm.Coalesce
import SkyOS.Mm.Nesting
import SkyOS.Mm.Probe
import SkyOS.Mm.Translation
import SkyOS.Mm.Sizes
import SkyOS.Mm.Return
import SkyOS.Mm.Refusal
import SkyOS.Mm.Coverage
import SkyOS.Drivers.Ramdisk
import SkyOS.Proc.Isolation
import SkyOS.Proc.Progress
import SkyOS.Proc.Slices
import SkyOS.Proc.BootLaws
import SkyOS.Proc.Choice
import SkyOS.Proc.Regions
import SkyOS.Proc.Stale
import SkyOS.Proc.Write
import SkyOS.Proc.Direct
import SkyOS.Proc.Loader
import SkyOS.Proc.Image
import SkyOS.Proc.Access
import SkyOS.Fs.Transparency
import SkyOS.Fs.Alloc
import SkyOS.Fs.Seeking
import SkyOS.Fs.Freeing
import SkyOS.Fs.Opening
import SkyOS.Fs.Layout
import SkyOS.Lib.Chains
import SkyOS.Fs.Found
import SkyOS.Fs.Unlinking
import SkyOS.Mm.Fields
import SkyOS.Fs.ShortNames
import SkyOS.Fs.LongNames
import SkyOS.Mm.Splitting
import SkyOS.Fs.Mounting
import SkyOS.Fs.Directory
import SkyOS.Fs.Listing
import SkyOS.Fs.Mirroring
import SkyOS.Fs.Extending
import SkyOS.Fs.Storing
import SkyOS.Fs.Appending
import SkyOS.Proc.Nested
import SkyOS.Proc.Backing
import SkyOS.Proc.Contexts
import SkyOS.Lib.Turns
import SkyOS.Proc.Protection
import SkyOS.Proc.Rotation
import SkyOS.Fs.Contents
import SkyOS.Fs.Files
import SkyOS.Fs.Volumes
import SkyOS.Fs.Refusing
import SkyOS.Fs.Orphans
