import DnsPro.Wire.RdataNames
import DnsPro.Wire.Truncation
import DnsPro.Wire.NoFault
import DnsPro.Wire.NormalForm
import DnsPro.Wire.Refusal
import DnsPro.Zone.Separation
import DnsPro.Zone.Allocation
import DnsPro.Resolve.LetterCase
import DnsPro.Resolve.Leftovers
import DnsPro.Resolve.Matching
import DnsPro.Resolve.Replies
import DnsPro.Resolve.Served
import DnsPro.Lib.Deadlock
