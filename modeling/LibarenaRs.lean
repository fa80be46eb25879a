import LibarenaRs.Glue.Memcpy
import LibarenaRs.Glue.Memcmp
import LibarenaRs.Glue.Exhaustion
import LibarenaRs.Alloc.Correctness
import LibarenaRs.Alloc.Hosted
import LibarenaRs.Alloc.Lowered
import LibarenaRs.Regex.Lines
import LibarenaRs.Regex.RunOn
import LibarenaRs.Btf.Acceptance
import LibarenaRs.Btf.AnyFile
import LibarenaRs.Llvm.Module
import LibarenaRs.Linker.DebugLinkage
import LibarenaRs.Linker.DeclLines
import LibarenaRs.Linker.LateStages
import LibarenaRs.Linker.Metadata
import LibarenaRs.Linker.PrintedIds
import LibarenaRs.Linker.TypedReturns
import LibarenaRs.Linker.TrapModes
import LibarenaRs.Linker.TrapPairs
import LibarenaRs.Linker.Dropping
import LibarenaRs.Linker.Operands
import LibarenaRs.Linker.Pipeline
import LibarenaRs.Linker.Entries
import LibarenaRs.Runner.Verdict
import LibarenaRs.Runner.Report
import LibarenaRs.Smoke.Sort
import LibarenaRs.Linker.Prototypes
import LibarenaRs.Linker.Signatures
