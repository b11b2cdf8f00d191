import Unbiased.Common.Values
import Unbiased.Math.Execution
import Unbiased.Common.TokensMap
import Unbiased.Common.Vocabulary
import Unbiased.Clustering.ArticleParser
import Unbiased.Clustering.Attribution
import Unbiased.Math.BucketTable
import Unbiased.Dedup.LSHDeduplication
import Unbiased.Store.Bson
import Unbiased.Store.ArticleCodec
import Unbiased.Store.VocabularyCodec
import Unbiased.Clustering.LSA
import Unbiased.Clustering.MinHash
import Unbiased.Store.MongoDb
import Unbiased.Clustering.Pipeline
import Unbiased.Clustering.Startup
import Unbiased.Clustering.Restart
import Unbiased.Dedup.Protocol
import Unbiased.Dedup.Agreement
import Unbiased.Dedup.TextArchive
import Unbiased.Concurrent.RcuMap
import Unbiased.Dedup.SharedStub
import Unbiased.Clustering.TermDocMatrix
import Unbiased.Dedup.BulkBuild
import Unbiased.Dedup.Overlap
import Unbiased.Math.LeastHash
import Unbiased.Clustering.Faults
import Unbiased.Clustering.Shingles
import Unbiased.Clustering.LiveRun
import Unbiased.Clustering.Handover
import Unbiased.Math.Triples
import Unbiased.Dedup.ServerLoop
import Unbiased.Math.Markup
import Unbiased.Scripts.XmlReader
import Unbiased.Scripts.PlainReader
import Unbiased.Scripts.ToXml
import Unbiased.Clustering.SignatureLaws
import Unbiased.Clustering.Similarity
import Unbiased.Dedup.NearDuplicates
import Unbiased.Clustering.ProcessedTokens
import Unbiased.Clustering.BatchCounts
import Unbiased.Clustering.Concatenation
import Unbiased.Clustering.KnownWords
import Unbiased.Clustering.StopWords
import Unbiased.Clustering.MatrixEntries
import Unbiased.Clustering.BatchMatrix
import Unbiased.Common.FrequentStems
import Unbiased.Clustering.CollectedBatch
import Unbiased.Clustering.MatrixAccess
import Unbiased.Clustering.ExactMatrix
import Unbiased.Clustering.DistanceMatrix
import Unbiased.Math.WithNan
import Unbiased.Clustering.ClusterAccess
import Unbiased.Math.Selection
import Unbiased.Clustering.TopConcepts
import Unbiased.Math.Splitting
import Unbiased.Scripts.ArticlesFile
import Unbiased.Dedup.StoredSignatures
import Unbiased.Math.Binary32
import Unbiased.Math.RunningMinimum
import Unbiased.Dedup.DateText
import Unbiased.Dedup.FindSource
import Unbiased.Store.Queries
import Unbiased.Store.ArticleDates
import Unbiased.Store.VocabularyUpdate
import Unbiased.Scripts.MongoUtils
import Unbiased.Clustering.UnknownTokens
import Unbiased.Common.Porter2Stemmer
import Unbiased.Clustering.StopWordStems
import Unbiased.Math.Regex
import Unbiased.Math.Loops
import Unbiased.Math.CommonRanks
import Unbiased.Ner.Features
import Unbiased.Ner.Custom
import Unbiased.Ner.FeatureRows
import Unbiased.Ner.Targets
import Unbiased.Store.DocumentCounts
import Unbiased.Math.Outputs
import Unbiased.Math.Charging
import Unbiased.Concurrent.RcuProgress
import Unbiased.Common.StemNumbering
import Unbiased.Math.Potential
import Unbiased.Math.Chains
import Unbiased.Dedup.ProtocolProgress
import Unbiased.Dedup.AskService
import Unbiased.Concurrent.RcuSequential
import Unbiased.Clustering.OnlineRun
import Unbiased.Math.Beginnings
import Unbiased.Common.StemShape
import Unbiased.Common.Possessives
import Unbiased.Math.Shares
import Unbiased.Dedup.DetectionRate
import Unbiased.Math.FirstBy
import Unbiased.Clustering.TermDocMatBind
import Unbiased.Math.PercentCoding
import Unbiased.Web.Contribute
import Unbiased.Scripts.FromXml
import Unbiased.Ner.ConllSplit
import Unbiased.Clustering.ClusterListing
