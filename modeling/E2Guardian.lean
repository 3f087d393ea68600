import E2Guardian.Bisection
import E2Guardian.PrefixSearch
import E2Guardian.RunCollapse
import E2Guardian.OrderedMap
import E2Guardian.SharedGraph
import E2Guardian.SlotTable
import E2Guardian.CutStream
import E2Guardian.MachineInts
import E2Guardian.Strings
import E2Guardian.TimeLimits
import E2Guardian.ItemList
import E2Guardian.UrlList
import E2Guardian.RealPath
import E2Guardian.RegExpLists
import E2Guardian.ItemFile
import E2Guardian.ExactSearch
import E2Guardian.SiteList
import E2Guardian.ListManager
import E2Guardian.ListLoads
import E2Guardian.ListCounts
import E2Guardian.PhraseList
import E2Guardian.ListEnds
import E2Guardian.ListTrees
import E2Guardian.ListCache
import E2Guardian.Scoring
import E2Guardian.Totals
import E2Guardian.EmptyChains
import E2Guardian.Categories
import E2Guardian.Normalisation
import E2Guardian.StoryBoard
import E2Guardian.StoryTable
import E2Guardian.StoryRun
import E2Guardian.StoryFlags
import E2Guardian.StoryGroups
import E2Guardian.QuickSearch
import E2Guardian.WordTrie
import E2Guardian.ThreeWaySort
import E2Guardian.PhraseGraph
import E2Guardian.PhraseNodes
import E2Guardian.PhraseManager
import E2Guardian.PhraseRuns
import E2Guardian.PhraseSearch
import E2Guardian.TimedLists
import E2Guardian.TimedVerdicts
import E2Guardian.PhraseRanks
import E2Guardian.PhraseLengths
import E2Guardian.Checkme
import E2Guardian.PhraseWeights
import E2Guardian.Bypass
import E2Guardian.LogRecords
import E2Guardian.Chunks
import E2Guardian.ChunkErrors
import E2Guardian.Sockets
import E2Guardian.Tunnel
import E2Guardian.DataBuffers
import E2Guardian.Downloads
import E2Guardian.ChunkDownloads
import E2Guardian.HttpHeader
import E2Guardian.HeaderLines
import E2Guardian.HeaderPointers
import E2Guardian.HeaderIndex
import E2Guardian.BodyLength
import E2Guardian.Urls
import E2Guardian.BlankLines
import E2Guardian.LineWrites
import E2Guardian.HostLines
import E2Guardian.IcapHeader
import E2Guardian.IcapRespond
import E2Guardian.HeaderFields
import E2Guardian.HeaderVariants
import E2Guardian.DeepUrls
import E2Guardian.UrlHosts
import E2Guardian.Sni
import E2Guardian.BubbleSort
import E2Guardian.SearchWords
import E2Guardian.RegReplace
import E2Guardian.RegMatch
import E2Guardian.Gateways
import E2Guardian.Addresses
import E2Guardian.GatewaySpecs
import E2Guardian.GatewayRules
import E2Guardian.IpLists
import E2Guardian.GroupLabels
import E2Guardian.GroupNames
import E2Guardian.IpGroups
import E2Guardian.TwoReaders
import E2Guardian.UrlEncoding
import E2Guardian.ProxyAuth
import E2Guardian.Cookies
import E2Guardian.SentBodies
import E2Guardian.BackedStores
import E2Guardian.DynamicIPs
import E2Guardian.Workers
import E2Guardian.Md5
import E2Guardian.StoryNames
import E2Guardian.TwoWayTunnels
import E2Guardian.Trickle
import E2Guardian.Authentication
