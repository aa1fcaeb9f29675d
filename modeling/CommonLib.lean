import CommonLib.FileDb.NoSpace
import CommonLib.FileDb.Integers
import CommonLib.Btree.Absent
import CommonLib.Btree.Union
import CommonLib.Btree.Visits
import CommonLib.TinyFrame.RoundTrip
import CommonLib.TinyFrame.Soundness
import CommonLib.TinyFrame.Multipart
import CommonLib.TinyFrame.Locking
import CommonLib.UsbPipe.Pipe
import CommonLib.UsbPipe.Calls
import CommonLib.Restful.Upload
import CommonLib.Restful.Download
import CommonLib.Adts.Walk
import CommonLib.Bitrate.Statistics
import CommonLib.FileSearch.Pages
import CommonLib.FileSearch.Locks
import CommonLib.Alist.Runs
import CommonLib.Mbuf.Runs
import CommonLib.NetServer.KeyValue
import CommonLib.FileDb.Damage
import CommonLib.FileDb.AnyOrder
import CommonLib.FileDb.Placement
import CommonLib.TinyFrame.Payload
import CommonLib.TinyFrame.Gaps
import CommonLib.TinyFrame.Tables
import CommonLib.TinyFrame.Ids
import CommonLib.TinyFrame.Reader
import CommonLib.UsbPipe.Listen
import CommonLib.Adts.Lengths
import CommonLib.Alist.Echo
import CommonLib.Doubles.Rounding
import CommonLib.FileSearch.Rows
import CommonLib.Mbuf.Overflow
import CommonLib.LibLog.Lines
import CommonLib.LibLog.CleanUp
import CommonLib.SearchTree.Path
import CommonLib.SearchTree.RedBlack
import CommonLib.Rbtree.Operations
import CommonLib.Rbtree.Shape
import CommonLib.Rbtree.Moves
import CommonLib.Rbtree.Insertion
import CommonLib.Rbtree.Refill
import CommonLib.Rbtree.Deletion
import CommonLib.Rbtree.Runs
import CommonLib.Rbtree.Traversal
import CommonLib.RadixTree.Keys
import CommonLib.SearchTree.Trie
import CommonLib.RadixTree.Nodes
import CommonLib.RadixTree.Insertion
import CommonLib.RadixTree.Deletion
import CommonLib.RadixTree.Lookup
import CommonLib.RadixTree.Runs
import CommonLib.RadixTree.Contract
import CommonLib.RadixTree.Preallocation
import CommonLib.Links.Threads
import CommonLib.NgxQueue.Contents
import CommonLib.NgxQueue.Runs
import CommonLib.Base64.Coding
import CommonLib.Base64.RoundTrip
