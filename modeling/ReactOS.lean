import ReactOS.Hive.HeapRun
import ReactOS.Hive.Validate
import ReactOS.Hive.Dirty
import ReactOS.Hive.Crash
import ReactOS.Rtl.AvlTable
import ReactOS.Rtl.BitmapRuns
import ReactOS.Ntfs.Allocate
import ReactOS.Ex.HandleMap
import ReactOS.Se.ObjectCheck
import ReactOS.Npfs.Delivery
import ReactOS.Rtl.Acl
import ReactOS.Ke.QueueDelivery
import ReactOS.FreeLdr.HeapRun
import ReactOS.Ke.SchedulerRun
import ReactOS.Ex.ResourceExclusion
import ReactOS.Fsrtl.McbQueries
import ReactOS.Rtl.RangeList
import ReactOS.Mm.VadSearch
import ReactOS.Hive.ValueList
import ReactOS.Se.FastTraverse
import ReactOS.Mm.PoolLists
import ReactOS.Ntfs.Fixup
import ReactOS.Hive.LeafHints
