import SarahClient.Strbuff.Refine
import SarahClient.Lib.DList
import SarahClient.Link.Model
import SarahClient.Link.Refine
import SarahClient.Hashmap.Hash
import SarahClient.Hashmap.Model
import SarahClient.Hashmap.Refine
import SarahClient.Json
import SarahClient.Lib.FileBytes
import SarahClient.Node.Model
import SarahClient.Node.Init
import SarahClient.Lib.BlockHash
import SarahClient.Md5.Model
import SarahClient.Updater.Install
import SarahClient.Md5.Stream
import SarahClient.Booter.Model
import SarahClient.Booter.Supervise
import SarahClient.Updater.Model
import SarahClient.Updater.Safety
import SarahClient.Executor.Model
import SarahClient.Executor.Sync
import SarahClient.Executor.SyncUrl
import SarahClient.Executor.DataBuffer
import SarahClient.Executor.Pull
import SarahClient.Executor.PullSound
import SarahClient.Executor.Signed
import SarahClient.Executor.Pacing
import SarahClient.Node.WriteThrough
import SarahClient.Bloom.Hash
import SarahClient.Bloom.Model
import SarahClient.Array.Model
import SarahClient.LuaList.Agree
import SarahClient.April.Model
import SarahClient.April.Tidy
import SarahClient.April.Once
import SarahClient.April.RoundTrip
import SarahClient.LevelDb.Codec
import SarahClient.Ip2region.Model
import SarahClient.Ip2region.Database
import SarahClient.Ip2region.Memory
import SarahClient.Ip2region.Btree
import SarahClient.Booter.SingleInstance
import SarahClient.Booter.Ghost
import SarahClient.Lib.StackBuffer
import SarahClient.Mysql.Model
import SarahClient.Mysql.BatchAdd
import SarahClient.LevelDb.Binding
import SarahClient.LevelDb.Lifetime
import SarahClient.LuaList.Lifetime
import SarahClient.Lib.Stdio
import SarahClient.Disk.Model
import SarahClient.Disk.Listing
import SarahClient.Disk.Fdisk
import SarahClient.Disk.Lsblk
import SarahClient.Disk.Mount
import SarahClient.Disk.Partition
import SarahClient.Cpu
import SarahClient.April.FileContents
import SarahClient.Ip2region.Retry
import SarahClient.LevelDb.OptionTable
import SarahClient.Executor.Report
import SarahClient.LevelDb.Reads
import SarahClient.April.ArrayOrder
import SarahClient.April.StackLimit
import SarahClient.Lib.HeapBuffer
import SarahClient.Mysql.Record
import SarahClient.Array.IntArray
import SarahClient.Array.Bounds
import SarahClient.Strbuff.InsertChar
import SarahClient.Link.Memory
import SarahClient.Network
import SarahClient.April.Numbers
import SarahClient.Updater.VersionFile
import SarahClient.April.Download
import SarahClient.Mysql.RecordQuery
import SarahClient.CelString
import SarahClient.FileBuffer
import SarahClient.Ip2region.Dotted
import SarahClient.Node.Id
import SarahClient.Node.Address
import SarahClient.Disk.Target
import SarahClient.Lib.DirTree
import SarahClient.Mkdir
import SarahClient.Disk.Fill
import SarahClient.Disk.Count
import SarahClient.Hardware.Model
import SarahClient.Hardware.Fields
import SarahClient.Hardware.Listing
import SarahClient.Hardware.Exact
import SarahClient.Bloom.Published
import SarahClient.CelMath
import SarahClient.Strbuff.Growth
import SarahClient.Utf8
import SarahClient.Bloom.Murmur
import SarahClient.April.Import
import SarahClient.April.Strings
import SarahClient.April.HttpPost
import SarahClient.April.Exec
import SarahClient.Disk.Tailing
import SarahClient.CelStdio
import SarahClient.Lib.Rounding
import SarahClient.CJson.Number
import SarahClient.CJson.Parse
import SarahClient.CJson.Safe
import SarahClient.CJson.Text
import SarahClient.CJson.Strings
import SarahClient.CJson.RoundTrip
import SarahClient.CJson.Accepted
import SarahClient.CJson.Print
import SarahClient.CJson.Unicode
import SarahClient.April.Text
import SarahClient.CJson.Value
import SarahClient.Executor.Posted
import SarahClient.Lib.SecureHash
import SarahClient.Sha.Model
import SarahClient.Sha.Process
import SarahClient.Sha.Stream
import SarahClient.Lib.BitGroups
import SarahClient.Lib.Base64
import SarahClient.Base64.Model
import SarahClient.Base64.Codec
import SarahClient.Base64.Lua
