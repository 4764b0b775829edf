import ElasticIndex.SeqTree.RangeMin
import ElasticIndex.Upsert
import ElasticIndex.KeyTypes
import ElasticIndex.SeqTree.Widen
import ElasticIndex.SubTrie.AccessInside
import ElasticIndex.Olc.CountLimit
import ElasticIndex.Olc.Lookup
import ElasticIndex.Tree.Answers
import ElasticIndex.SeqTree.SlotRange
import ElasticIndex.SeqTree.SearchAccess
import ElasticIndex.Tree.HybridChain
import ElasticIndex.Tree.SetAnswers
import ElasticIndex.Tree.RangeTime
