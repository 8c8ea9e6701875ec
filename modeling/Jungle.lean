import Jungle.Lib.Store
import Jungle.Lib.Forest
import Jungle.Lib.Allocator
import Jungle.Lib.Tiling
import Jungle.Lib.Loop
import Jungle.Lib.Logged
import Jungle.Lib.Run
import Jungle.Lib.Segment
import Jungle.Lib.MachineInt
import Jungle.Lib.NaturalMerge
import Jungle.Lib.Neighbours
import Jungle.Lib.Words
import Jungle.Lib.Heap
import Jungle.Lib.LongDivision
import Jungle.LinkedLists.Basic
import Jungle.LinkedLists.Sequence
import Jungle.LinkedLists.TwoLists
import Jungle.LinkedLists.Stacks
import Jungle.LinkedLists.PairwiseConsecutive
import Jungle.LinkedLists.Balanced
import Jungle.LinkedLists.AlternateMerge
import Jungle.LinkedLists.SequenceRuns
import Jungle.LinkedLists.MoveItems
import Jungle.LinkedLists.SortedInsert
import Jungle.LinkedLists.SortedRuns
import Jungle.Lib.OrderedTree
import Jungle.Lib.TreeOrders
import Jungle.SearchTrees.Basic
import Jungle.SearchTrees.Functional
import Jungle.SearchTrees.Refinement
import Jungle.SearchTrees.Traversals
import Jungle.SearchTrees.InOrder
import Jungle.SearchTrees.PostOrder
import Jungle.SearchTrees.LevelOrder
import Jungle.SearchTrees.Runs
import Jungle.Lib.Links
import Jungle.Proxy.Cache
import Jungle.Proxy.Linked
import Jungle.Proxy.Eviction
import Jungle.Proxy.SecondChance
import Jungle.Proxy.CacheRuns
import Jungle.Proxy.Requests
import Jungle.Proxy.RequestRuns
import Jungle.Proxy.Forwarding
import Jungle.Proxy.Rio
import Jungle.Proxy.Headers
import Jungle.Proxy.Parsing
import Jungle.Proxy.Targets
import Jungle.WebServer.Basic
import Jungle.WebServer.Connections
import Jungle.Proxy.Threads
import Jungle.Paging.Basic
import Jungle.Paging.Entries
import Jungle.Paging.Walks
import Jungle.Paging.TopLevel
import Jungle.Paging.Flags
import Jungle.Paging.Isolation
import Jungle.Paging.Updates
import Jungle.Paging.Supply
import Jungle.Paging.ForEach
import Jungle.Paging.Destroy
import Jungle.Paging.Spaces
import Jungle.Paging.SpaceUpdates
import Jungle.Lib.TreeContext
import Jungle.Lib.RedBlack
import Jungle.RedBlack.Basic
import Jungle.RedBlack.Shape
import Jungle.RedBlack.Steps
import Jungle.RedBlack.Rotations
import Jungle.RedBlack.Insert
import Jungle.RedBlack.DeleteFixup
import Jungle.RedBlack.WrongSibling
import Jungle.RedBlack.DeleteLoop
import Jungle.RedBlack.Erase
import Jungle.RedBlack.WellFormed
import Jungle.RedBlack.ToArray
import Jungle.RedBlack.Lookup
import Jungle.RedBlack.Runs
import Jungle.Lib.WordMemory
import Jungle.Bitmap.Basic
import Jungle.Bitmap.Bits
import Jungle.Pages.Basic
import Jungle.Lib.Ledger
import Jungle.Pages.Pools
import Jungle.Pages.Runs
import Jungle.Pages.Safety
import Jungle.Pages.Populate
import Jungle.Pages.Boundaries
import Jungle.Pages.Marking
import Jungle.Pages.Population
import Jungle.Printf.Basic
import Jungle.Printf.Directives
import Jungle.Printf.Integers
import Jungle.Printf.ReadBack
import Jungle.Printf.Rendering
import Jungle.KernelList.Basic
import Jungle.KernelList.Rings
import Jungle.KernelList.Operations
import Jungle.KernelList.Reverse
import Jungle.KernelList.Sequences
import Jungle.KernelList.Runs
import Jungle.Threads.Synch
import Jungle.Threads.Ownership
import Jungle.Threads.Semaphores
import Jungle.Threads.Conditions
import Jungle.Threads.Signals
import Jungle.Scheduler.Basic
import Jungle.Scheduler.Queues
import Jungle.Scheduler.Books
import Jungle.Scheduler.Calls
import Jungle.Scheduler.Runs
import Jungle.Lib.RingBuffer
import Jungle.IntQueue.Basic
import Jungle.IntQueue.Runs
import Jungle.KernelList.Families
import Jungle.KernelList.Sort
import Jungle.KernelList.Ordered
import Jungle.Arithmetic.Division
import Jungle.Arithmetic.Remainder
import Jungle.Hash.Basic
import Jungle.Hash.Counts
import Jungle.Hash.Moves
import Jungle.Hash.Rehash
import Jungle.Hash.Runs
import Jungle.Hash.Iteration
import Jungle.Arenas.Basic
import Jungle.Arenas.Layout
import Jungle.Arenas.Steps
import Jungle.Arenas.Calls
import Jungle.Arenas.Release
import Jungle.Arenas.Runs
import Jungle.Arenas.Calloc
import Jungle.Lib.ByteMemory
import Jungle.Strings.Memmove
import Jungle.Strings.Tokens
import Jungle.Stdlib.Sort
import Jungle.Stdlib.Search
import Jungle.FileSys.Basic
import Jungle.FileSys.Transfers
import Jungle.FileSys.Contents
import Jungle.Lib.Census
import Jungle.Lib.DigitGroups
import Jungle.Lib.Ensures
import Jungle.FileSys.WriteDenial
import Jungle.FileSys.DenialRuns
import Jungle.FileSys.Directory
import Jungle.FileSys.Boot
import Jungle.FileSys.Entries
import Jungle.FileSys.FreeMap
import Jungle.FileSys.Names
import Jungle.FileSys.DirectoryRuns
import Jungle.FileSys.Sectors
import Jungle.FileSys.Volume
import Jungle.FileSys.Handles
import Jungle.FileSys.OpenFiles
import Jungle.FileSys.RootDir
import Jungle.FileSys.OpenRemove
import Jungle.FileSys.Creation
import Jungle.FileSys.Sessions
import Jungle.FileSys.Mounting
import Jungle.FileSys.Formatting
import Jungle.FileSys.VolumeRuns
import Jungle.FileSys.Table
import Jungle.FileSys.Refinement
import Jungle.FileSys.Listing
import Jungle.Loader.Basic
import Jungle.Loader.Rounds
import Jungle.Loader.Segments
import Jungle.Processes.Basic
import Jungle.Processes.Conservation
import Jungle.Processes.Loading
import Jungle.MallocLab.Basic
import Jungle.MallocLab.FreeList
import Jungle.MallocLab.BestFit
import Jungle.MallocLab.Blocks
import Jungle.MallocLab.Coalesce
import Jungle.MallocLab.Free
import Jungle.MallocLab.Grow
import Jungle.MallocLab.Malloc
import Jungle.MallocLab.Realloc
import Jungle.MallocLab.Requests
import Jungle.MallocLab.Resizing
import Jungle.MallocLab.Runs
import Jungle.MallocLab.Ranges
import Jungle.MallocLab.Driver
import Jungle.MallocLab.Place
