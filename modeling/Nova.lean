import Nova.Pmem
import Nova.Persist
import Nova.Crc
import Nova.Protect
import Nova.Parity
import Nova.Journal
import Nova.JournalInit
import Nova.File
import Nova.Dax.HeadTail
import Nova.Dax.Csum
import Nova.Dax.Log
import Nova.Dax.CowWrite
import Nova.Dax.CowStep
import Nova.Dax.CowSpec
import Nova.Dax.CowTile
import Nova.Dax.CsumSource
import Nova.Dax.CowCrash
import Nova.Dax.Read
import Nova.Dax.GetBlocks
import Nova.Dax.Race
import Nova.Dax.Index
import Nova.Dax.FileModel
import Nova.JournalTxn
import Nova.ParityRestore
import Nova.ParityUnroll
import Nova.ParityInvariant
import Nova.JournalLifecycle
