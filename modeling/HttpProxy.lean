import HttpProxy.Base.Search
import HttpProxy.Base.Scan
import HttpProxy.Base.Recency
import HttpProxy.Base.Fold
import HttpProxy.Base.Run
import HttpProxy.Base.Holding
import HttpProxy.Base.Handles
import HttpProxy.Base.Noting
import HttpProxy.Bytes
import HttpProxy.Message
import HttpProxy.ResponseParser
import HttpProxy.RequestParser
import HttpProxy.RequestLine
import HttpProxy.Reserving
import HttpProxy.Response
import HttpProxy.Request
import HttpProxy.Policy
import HttpProxy.Accepted
import HttpProxy.Cache
import HttpProxy.CacheOrder
import HttpProxy.Net
import HttpProxy.Proxy
import HttpProxy.Session
import HttpProxy.Effects
import HttpProxy.Sending
import HttpProxy.Delivery
import HttpProxy.Receive
import HttpProxy.Windows
import HttpProxy.Fetch
import HttpProxy.Division
import HttpProxy.Validate
import HttpProxy.Traces
import HttpProxy.Get
import HttpProxy.Runs
import HttpProxy.Rejected
import HttpProxy.Tunnel
import HttpProxy.Calls
import HttpProxy.Covered
import HttpProxy.Retention
import HttpProxy.Visits
import HttpProxy.Gaps
import HttpProxy.Objects
import HttpProxy.Ledger
import HttpProxy.Contacts
import HttpProxy.Closing
import HttpProxy.Validators
import HttpProxy.Storing
import HttpProxy.Freshness
import HttpProxy.Expiry
import HttpProxy.Relay
import HttpProxy.Forwarded
import HttpProxy.Framing
import HttpProxy.Marking
import HttpProxy.Completion
import HttpProxy.Segments
import HttpProxy.Silence
import HttpProxy.Provenance
import HttpProxy.Entries
import HttpProxy.Threads
import HttpProxy.Checked
import HttpProxy.Logged
import HttpProxy.Announced
import HttpProxy.Directives
import HttpProxy.Spelling
import HttpProxy.Target
import HttpProxy.Arrival
import HttpProxy.Base.Locked
import HttpProxy.Base.HashTable
import HttpProxy.Locking
import HttpProxy.Iterators
import HttpProxy.Recognition
import HttpProxy.Wire
import HttpProxy.ChunkedRecognition
import HttpProxy.Language
import HttpProxy.Printed
import HttpProxy.Shelf
import HttpProxy.Refinement
import HttpProxy.Base.Upholding
import HttpProxy.LogFile
import HttpProxy.LogText
import HttpProxy.Quotes
import HttpProxy.Listen
import HttpProxy.Glued
