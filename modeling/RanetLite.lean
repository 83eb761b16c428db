import RanetLite.Theorems.Frames
import RanetLite.Theorems.Compression
import RanetLite.Theorems.SaCodec
import RanetLite.Theorems.LoopFree
import RanetLite.Theorems.Nonces
import RanetLite.Theorems.Delivery
import RanetLite.Theorems.Revocation
import RanetLite.Theorems.Srv6
import RanetLite.Theorems.InPlace
import RanetLite.Theorems.Exit
import RanetLite.Theorems.Forwarding
import RanetLite.Theorems.Link
import RanetLite.Theorems.ChildSPI
import RanetLite.Theorems.MessageIDs
import RanetLite.Theorems.HalfOpen
import RanetLite.Theorems.History
import RanetLite.Theorems.IdentityDN
import RanetLite.Theorems.LinkCost
import RanetLite.Theorems.Envelope
import RanetLite.Theorems.Hold
import RanetLite.Theorems.Memo
import RanetLite.Theorems.Ledgers
import RanetLite.Theorems.Cookies
import RanetLite.Theorems.IcmpToken
import RanetLite.Theorems.IcmpError
import RanetLite.Theorems.Segments
import RanetLite.Theorems.Netlink
import RanetLite.Theorems.EspQueue
import RanetLite.Theorems.Ownership
import RanetLite.Theorems.Trie
