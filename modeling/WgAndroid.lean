import WgAndroid.Lib.Delimited
import WgAndroid.Lib.Checked
import WgAndroid.Lib.Chunked
import WgAndroid.Lib.LinkedSet
import WgAndroid.Lib.Regex
import WgAndroid.Lib.AssocList
import WgAndroid.Lib.BinarySearch
import WgAndroid.Lib.Interleaving
import WgAndroid.Lib.Routine
import WgAndroid.Lib.Rfc4648
import WgAndroid.Lib.Shell
import WgAndroid.Lib.PointerChain
import WgAndroid.Lib.Continued
import WgAndroid.Lib.Splice
import WgAndroid.Lib.Along
import WgAndroid.Lib.Intervals
import WgAndroid.Lib.Montgomery
import WgAndroid.Lib.Lucas
import WgAndroid.Lib.Radix
import WgAndroid.Lib.SignedWord
import WgAndroid.Lib.Bits
import WgAndroid.Java.Text
import WgAndroid.Crypto.Key
import WgAndroid.Crypto.KeyCodec
import WgAndroid.Crypto.Prime
import WgAndroid.Crypto.Curve25519
import WgAndroid.Crypto.Limbs
import WgAndroid.Crypto.Packing
import WgAndroid.Crypto.X25519
import WgAndroid.Config.Attribute
import WgAndroid.Config.Network
import WgAndroid.Config.Coverage
import WgAndroid.Config.Literals
import WgAndroid.Config.Resolution
import WgAndroid.Config.Interface
import WgAndroid.Config.Peer
import WgAndroid.Config.Sections
import WgAndroid.Config.RoundTrip
import WgAndroid.Config.Equality
import WgAndroid.Config.Errors
import WgAndroid.Java.Utf8
import WgAndroid.Tools.CString
import WgAndroid.Tools.Encoding
import WgAndroid.Tools.WgConfig
import WgAndroid.Tools.Netlink
import WgAndroid.Tools.Coalesce
import WgAndroid.Tools.WgQuick
import WgAndroid.Tools.QuickFile
import WgAndroid.Tools.Teardown
import WgAndroid.Tools.Users
import WgAndroid.Tools.UidBounds
import WgAndroid.Tools.Printed
import WgAndroid.Tools.Values
import WgAndroid.Tools.Agreement
import WgAndroid.Tools.Dnses
import WgAndroid.Backend.Tunnel
import WgAndroid.Backend.GoBackend
import WgAndroid.Backend.Endpoints
import WgAndroid.Backend.WgQuickBackend
import WgAndroid.Backend.Statistics
import WgAndroid.Backend.UserspaceStatistics
import WgAndroid.Tools.Mtu
import WgAndroid.Tools.Hacl64
import WgAndroid.Tools.Felem
import WgAndroid.Tools.Ladder
import WgAndroid.Tools.KeyCommands
import WgAndroid.Tools.SyncConf
import WgAndroid.Tools.ShowConf
import WgAndroid.Tools.Restore
import WgAndroid.Manager.SortedKeyedList
import WgAndroid.Manager.TunnelComparator
import WgAndroid.Manager.TunnelManager
import WgAndroid.Manager.Steps
import WgAndroid.Manager.Loading
import WgAndroid.Manager.Ownership
import WgAndroid.Manager.Running
import WgAndroid.Manager.Sequential
import WgAndroid.Manager.SavedState
import WgAndroid.Manager.Failures
import WgAndroid.Manager.Favourites
import WgAndroid.Manager.FileConfigStore
import WgAndroid.Manager.LiveList
import WgAndroid.Manager.Searchable
import WgAndroid.Util.TunnelImporter
import WgAndroid.Util.RootShell
import WgAndroid.Ui.ZipExporter
import WgAndroid.Ui.TunnelList
import WgAndroid.Ui.LogViewer
import WgAndroid.Ui.ItemChangeListener
import WgAndroid.Viewmodel.Proxies
import WgAndroid.Viewmodel.ExcludeSwitch
import WgAndroid.Viewmodel.PrivateIps
import WgAndroid.Updater.FileList
import WgAndroid.Updater.Session
import WgAndroid.Updater.Chunking
