import DTrace.Cg.Tstring
import DTrace.Agg.Stddev
import DTrace.Cg.Substr
import DTrace.Cg.DivLaw
import DTrace.Cg.AllocaBlocks
import DTrace.Cg.BitfieldSound
import DTrace.Parser.Fold
import DTrace.As.Run
import DTrace.Dvar.Sound
import DTrace.Asgn.Once
import DTrace.Spec.Release
import DTrace.Probed.Ioctl
import DTrace.Agg.Tuple
import DTrace.Usdt.NotesWire
import DTrace.Usdt.NotesGroup
import DTrace.Usdt.Hyphens
import DTrace.Usdt.NotesBounds
import DTrace.Usdt.Pipe
import DTrace.Stash.Runs
import DTrace.Opt.Values
import DTrace.Uprobe.Trampoline
import DTrace.Probe.Lookup
import DTrace.Usdt.DofIndex
import DTrace.Symtab.Alias
import DTrace.Agg.Divide
import DTrace.Agg.Order
import DTrace.Bpf.Lltostr
import DTrace.Cg.Element
import DTrace.Usdt.DofUnique
import DTrace.Parser.Escape
import DTrace.Consume.Flow
