import Archie.StateText
import Archie.NewStrSearch
import Archie.SearchMixed
import Archie.Indexed
import Archie.StridxRestore
import Archie.LevelFile
import Archie.Append
import Archie.StridxShare
import Archie.HstartDb
import Archie.SetupInsert
import Archie.SiteLinks
import Archie.HandleChain
import Archie.Exchange
import Archie.BooleanStarts
import Archie.BooleanSite
import Archie.IndexSame
import Archie.PagingSame
import Archie.HostLists
import Archie.HostTable
import Archie.NetCommand
import Archie.Hostaux
import Archie.ArupdateConfig
import Archie.TuplePoll
import Archie.HeaderLines
import Archie.Header
import Archie.SubHeader
import Archie.CrawlFile
import Archie.Robot
import Archie.HostDb
import Archie.Strsrch
import Archie.GatewayUrl
import Archie.HeapList
import Archie.MatchCache
import Archie.HostDir
import Archie.WebExport
import Archie.PlainSearch
import Archie.QuotedKey
import Archie.BooleanSame
import Archie.KeyMerge
import Archie.TupleUnion
import Archie.StartSets
import Archie.SiteUnion
import Archie.SiteResume
import Archie.SearchQuoting
import Archie.Egrep
import Archie.RegexSub
import Archie.WordOrder
import Archie.BooleanParse
import Archie.UnixLine
import Archie.HostauxLookup
import Archie.HostPriority
import Archie.DomainSearch
import Archie.DomainCompile
import Archie.TagScan
import Archie.DotSegments
import Archie.UrlClean
import Archie.UnixMemory
import Archie.VmsLine
import Archie.AnonParse
import Archie.RootHeader
import Archie.UrlDb
import Archie.KnownUrls
import Archie.DocUrls
import Archie.WebRecurse
import Archie.CrawlUrls
import Archie.Strfind
import Archie.Rmem
import Archie.Argv
import Archie.HostRename
import Archie.AclFile
import Archie.Times
import Archie.Base64
import Archie.Authorization
import Archie.Keywords
import Archie.EgrepUnique
import Archie.EgrepParts
import Archie.SearchChoice
import Archie.Catalogs
import Archie.CatalogsRead
import Archie.Strhash
import Archie.Memfgets
import Archie.DiffBit
import Archie.RunBuild
import Archie.RegexScan
import Archie.PagedTrie
import Archie.CrawlRun
import Archie.BuildSearch
import Archie.SiteQuery
