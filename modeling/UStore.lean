import UStore.Louvain.UnorderedMap
import UStore.Louvain.Graph
import UStore.Louvain.Phase
import UStore.Louvain.Induce
import UStore.Louvain.Rounding
import UStore.Louvain.Arithmetic
import UStore.Louvain.Statistics
import UStore.Louvain.Equivalence
import UStore.Louvain.Modularity
import UStore.Louvain.BestPartition
import UStore.Louvain.Optimality
import UStore.Louvain.Partitions
import UStore.Louvain.Aggregation
import UStore.ConfigLoader.Json
import UStore.ConfigLoader.Numbers
import UStore.ConfigLoader.Loader
