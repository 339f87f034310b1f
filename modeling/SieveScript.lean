import SieveScript.Token
import SieveScript.Tree
import SieveScript.Tree.Printer
import SieveScript.Tree.View
import SieveScript.Vocabulary
import SieveScript.Reading
import SieveScript.Json.Tree
import SieveScript.Capabilities
import SieveScript.Disk.Memory
import SieveScript.CommandLine
import SieveScript.Main
import SieveScript.Proofs.RoundTrip
import SieveScript.Proofs.Grammar
import SieveScript.Proofs.OpenPath
import SieveScript.Proofs.Skeleton
import SieveScript.Proofs.Degradation
import SieveScript.Proofs.Declaring
import SieveScript.Proofs.Reformatting
import SieveScript.Proofs.Rewording
import SieveScript.Proofs.Prefixes
import SieveScript.Proofs.Clauses
import SieveScript.Proofs.Recollecting
import SieveScript.Proofs.JsonForms
import SieveScript.Proofs.Tiling
import SieveScript.Proofs.Closing
import SieveScript.Proofs.Usage
import SieveScript.Proofs.Conservation
import SieveScript.Proofs.Codecs
import SieveScript.Proofs.Snippets
import SieveScript.Proofs.LetterCase
import SieveScript.Proofs.Newlines
import SieveScript.Proofs.Calls
import SieveScript.Proofs.Numbers
