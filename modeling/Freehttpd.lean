import Freehttpd.HtableHome
import Freehttpd.HtableLoad
import Freehttpd.HtableNumbers
import Freehttpd.HtableSlots
import Freehttpd.HtableSweep
import Freehttpd.ServerConfig
import Freehttpd.ServerResources
import Freehttpd.UringBalance
import Freehttpd.UringPointers
import Freehttpd.UringTeardown
import Freehttpd.XioLimits
import Freehttpd.XioBalance
import Freehttpd.XioBuffers
import Freehttpd.XioFlags
import Freehttpd.XioPartition
import Freehttpd.XioRanges
import Freehttpd.XioRestore
import Freehttpd.XpollCapacity
import Freehttpd.XpollInterest
import Freehttpd.XpollRegistry
import Freehttpd.XpollUndo
import Freehttpd.XpollWait
import Freehttpd.RapidhashPlatforms
import Freehttpd.ServerStartup
import Freehttpd.XpollDeliveries
import Freehttpd.HtableWork
