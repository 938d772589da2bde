import Dynarec.Main
import Dynarec.Proofs.Host.Refinement
import Dynarec.Proofs.Engine.Tables
import Dynarec.Proofs.Engine.Ledger
import Dynarec.Proofs.Engine.Modes
import Dynarec.Proofs.Engine.Progress
import Dynarec.Proofs.Invalidation
import Dynarec.Proofs.Registrations
import Dynarec.Proofs.CommandLine.Slices
import Dynarec.Proofs.RegisterUse
import Dynarec.Proofs.Host.Budget
import Dynarec.Proofs.Host.Departures
import Dynarec.Proofs.Stopping
import Dynarec.Proofs.ClearLoop
import Dynarec.Proofs.Engine.Memset
import Dynarec.Proofs.FreedBlocks
import Dynarec.Proofs.StaticIo
import Dynarec.Proofs.Faults
import Dynarec.Proofs.AliasChains
import Dynarec.Proofs.EvictionOrder
import Dynarec.Proofs.Unaligned
import Dynarec.Proofs.Engine.Overrun
import Dynarec.Proofs.BlockReuse
import Dynarec.Proofs.UnknownWords
import Dynarec.Proofs.Image.Loading
import Dynarec.Proofs.MulDiv
import Dynarec.Proofs.ZeroRegister
import Dynarec.Proofs.JobQueue
import Dynarec.Proofs.CompilerHealth
import Dynarec.Proofs.Engine.OldCode
