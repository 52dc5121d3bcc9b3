import Pintos.Lib.Transition
import Pintos.Lib.StateExcept
import Pintos.Lib.Digits
import Pintos.Lib.DLink
import Pintos.Lib.Buckets
import Pintos.Lib.Heap
import Pintos.Lib.Ring
import Pintos.Lib.Mask
import Pintos.Kernel.List
import Pintos.Kernel.ListHeap
import Pintos.Kernel.ListSort
import Pintos.Kernel.Hash
import Pintos.Kernel.ListHeapSort
import Pintos.Kernel.Bitmap
import Pintos.Kernel.BitmapWords
import Pintos.Threads.Fixed
import Pintos.Threads.State
import Pintos.Threads.Thread
import Pintos.Threads.Synch
import Pintos.Threads.Timer
import Pintos.Threads.Step
import Pintos.Threads.Wf
import Pintos.Threads.Semaphore
import Pintos.Threads.Cond
import Pintos.Threads.Alarm
import Pintos.Threads.ReadyOrder
import Pintos.Threads.Donation
import Pintos.Threads.Mlfqs
import Pintos.Threads.Malloc
import Pintos.Threads.MallocHeap
import Pintos.Libc.String
import Pintos.Libc.Strtok
import Pintos.Libc.Ustar
import Pintos.Libc.Arithmetic
import Pintos.Libc.Stdlib
import Pintos.Libc.Printf
import Pintos.Libc.PrintfSpec
import Pintos.Libc.Random
import Pintos.Libc.Atoi
import Pintos.Libc.Memory
import Pintos.Devices.Partition
import Pintos.Devices.Intq
import Pintos.Filesys.File
import Pintos.Filesys.Inode
import Pintos.Filesys.InodeIo
import Pintos.Filesys.Directory
import Pintos.Filesys.Create
import Pintos.Userprog.Uaccess
import Pintos.Userprog.Pagedir
import Pintos.Userprog.PagedirInv
import Pintos.Userprog.Load
import Pintos.Userprog.Segment
import Pintos.Userprog.Args
import Pintos.Userprog.Syscall
import Pintos.Threads.Init
import Pintos.Userprog.Exec
import Pintos.Userprog.Elf
import Pintos.Userprog.Descriptors
import Pintos.Userprog.Crash
import Pintos.Userprog.Buffers
import Pintos.Userprog.Process
import Pintos.Userprog.Wait
import Pintos.Vm.State
import Pintos.Vm.Frame
import Pintos.Vm.Clock
import Pintos.Vm.Evict
import Pintos.Vm.PagedirRefine
import Pintos.Vm.Page
import Pintos.Vm.Coherence
import Pintos.Vm.FrameRefine
import Pintos.Vm.FrameHeap
import Pintos.Lib.Loop
import Pintos.Userprog.PagedirDestroy
