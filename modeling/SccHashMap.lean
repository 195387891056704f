import SccHashMap.Word
import SccHashMap.Array
import SccHashMap.Reserve
import SccHashMap.KeyLock
import SccHashMap.Upsert
import SccHashMap.Cell
import SccHashMap.HashTable
import SccHashMap.Retain
import SccHashMap.Entry
import SccHashMap.Update
import SccHashMap.Reachable
import SccHashMap.FiniteMap
import SccHashMap.Refinement
